import Mdelay.Library.Getopt
import Mdelay.Model.Socket

/-!
# check_clock.c

The tool asks `ptp4l` over its local socket for the state of its port and, on a slave port, for the offset from
its master, and compares the clocks of the host.
-/

namespace Mdelay.CheckClock
open ByteOrder Getopt

inductive Exit where
  | success | failure
  deriving DecidableEq

/-- `|` of two exit codes. -/
def Exit.or : Exit → Exit → Exit
  | .success, .success => .success
  | _, _ => .failure

/-- `llabs`, undefined for the least value. -/
def llabs (v : BitVec 64) : Option (BitVec 64) :=
  if v = BitVec.intMin 64 then none else if v.toInt < 0 then some (-v) else some v

/-! ### Requests -/

/-- `clockId` are the eight bytes in their order. -/
structure PortId where
  clockId : BitVec 64
  portNum : BitVec 16

def PortId.bytes (e : Endian) (p : PortId) : List Byte := beBytes 8 p.clockId.toNat ++ e.store 2 p.portNum.toNat

structure PtpHdr where
  tsmt : BitVec 8
  ver : BitVec 8
  msgLen : BitVec 16
  domainNum : BitVec 8
  reserved1 : BitVec 8
  flags : BitVec 16
  correction : BitVec 64
  reserved2 : BitVec 32
  srcPortId : PortId
  seqId : BitVec 16
  control : BitVec 8
  logInterval : BitVec 8

def PtpHdr.bytes (e : Endian) (h : PtpHdr) : List Byte :=
  [h.tsmt, h.ver] ++ e.store 2 h.msgLen.toNat ++ [h.domainNum, h.reserved1] ++ e.store 2 h.flags.toNat ++
    e.store 8 h.correction.toNat ++ e.store 4 h.reserved2.toNat ++ h.srcPortId.bytes e ++ e.store 2 h.seqId.toNat ++
    [h.control, h.logInterval]

structure MgmtMsg where
  hdr : PtpHdr
  destPortId : PortId
  startHops : BitVec 8
  boundaryHops : BitVec 8
  flags : BitVec 8
  reserved : BitVec 8

def MgmtMsg.bytes (e : Endian) (m : MgmtMsg) : List Byte :=
  m.hdr.bytes e ++ m.destPortId.bytes e ++ [m.startHops, m.boundaryHops, m.flags, m.reserved]

structure GetReq where
  mgmt : MgmtMsg
  type : BitVec 16
  len : BitVec 16
  reqId : BitVec 16

def GetReq.bytes (e : Endian) (r : GetReq) : List Byte :=
  r.mgmt.bytes e ++ e.store 2 r.type.toNat ++ e.store 2 r.len.toNat ++ e.store 2 r.reqId.toNat

def sizeofGetReq : Nat := 54
def sizeofRespTimeStat : Nat := 62

def management : BitVec 8 := 0xD
def ptpVersion : BitVec 8 := 0x2
def ctlManagement : BitVec 8 := 0x4
def tlvManagement : BitVec 16 := 0x0001
def tlvPortDataSet : BitVec 16 := 0x2004
def tlvTimeStatusNp : BitVec 16 := 0xC000

def tsmtSet (transportSpecific msgType : BitVec 8) : BitVec 8 := (transportSpecific <<< 4) ||| msgType

def buildPtpRequest (e : Endian) (reqId : BitVec 16) (gptpProfile : Bool) : GetReq where
  mgmt.hdr.tsmt := tsmtSet (if gptpProfile then 0x1 else 0) management
  mgmt.hdr.ver := ptpVersion
  mgmt.hdr.msgLen := htons e (BitVec.ofNat 16 sizeofGetReq)
  mgmt.hdr.domainNum := 0
  mgmt.hdr.reserved1 := 0
  mgmt.hdr.flags := 0
  mgmt.hdr.correction := 0
  mgmt.hdr.reserved2 := 0
  mgmt.hdr.srcPortId := ⟨0, htons e 0x1⟩
  mgmt.hdr.seqId := 0
  mgmt.hdr.control := ctlManagement
  mgmt.hdr.logInterval := 0x7F
  mgmt.destPortId := ⟨BitVec.allOnes 64, BitVec.allOnes 16⟩
  mgmt.startHops := 0
  mgmt.boundaryHops := 0
  mgmt.flags := 0
  mgmt.reserved := 0
  type := htons e tlvManagement
  len := htons e 0x2
  reqId := htons e reqId

/-! ### Replies -/

/-- What becomes of a request: `sendto` does not take all of it, `poll` reports no answer, `read` fails, or it
returns a message. -/
inductive Reply where
  | unsent
  | silent
  | error
  | message (bytes : List Byte)

/-- The result of `read` and the buffer after it. -/
def Reply.read (recBuf : List Byte) : Reply → Option (Int × List Byte)
  | .unsent | .silent => none
  | .error => some (-1, recBuf)
  | .message bytes => some ((bytes.take recBuf.length).length, memcpy recBuf (bytes.take recBuf.length))

/-- `count` is signed and the size it is compared with is not, so it is compared as an unsigned number. -/
def sendWaitRecv (r : Reply) (recBuf : List Byte) : Exit × List Byte :=
  match r.read recBuf with
  | none => (.failure, recBuf)
  | some (count, recBuf) =>
    (if sizeofRespTimeStat ≤ (BitVec.ofInt 64 count).toNat then .success else .failure, recBuf)

/-! The packed structs over the buffer: `type` at 48, `req_id` at 52, `master_offset` at 54, `pds.state` at 64. -/

def recType (e : Endian) (recBuf : List Byte) : BitVec 16 := BitVec.ofNat 16 (e.load (slice 48 2 recBuf))

def recReqId (e : Endian) (recBuf : List Byte) : BitVec 16 := BitVec.ofNat 16 (e.load (slice 52 2 recBuf))

def masterOffset (e : Endian) (recBuf : List Byte) : BitVec 64 := BitVec.ofNat 64 (e.load (slice 54 8 recBuf))

def state (recBuf : List Byte) : BitVec 8 := BitVec.ofNat 8 (ofLeBytes (slice 64 1 recBuf))

def master : BitVec 8 := 6
def slave : BitVec 8 := 9
def grandMaster : BitVec 8 := 10

def isPortSane (state : BitVec 8) : Bool := state = master ∨ state = slave ∨ state = grandMaster

/-- `portState` is what the variable holds. -/
def getPortStatus (e : Endian) (recBuf : List Byte) (portState : BitVec 32) : Bool × BitVec 32 :=
  if ntohs e (recType e recBuf) = tlvManagement ∧ ntohs e (recReqId e recBuf) = tlvPortDataSet then
    (isPortSane (state recBuf), (state recBuf).setWidth 32)
  else (false, portState)

def bswap64 (v : BitVec 64) : BitVec 64 := BitVec.ofNat 64 (swapBytes 8 v.toNat)

def getMasterOffset (e : Endian) (recBuf : List Byte) : Option (BitVec 64) :=
  if ntohs e (recType e recBuf) = tlvManagement ∧ ntohs e (recReqId e recBuf) = tlvTimeStatusNp then
    llabs (bswap64 (masterOffset e recBuf))
  else some 0

/-! ### check_ptp_offset -/

/-- The exit code, `none` where the behaviour is undefined, and the requests made. -/
structure PtpCheck where
  ret : Option Exit
  requests : List GetReq

def verdict (sanePortState : Bool) (offset : BitVec 64) : Exit :=
  if sanePortState ∧ offset.toInt ≤ 100 then .success else .failure

/-- From the answer about the port on. -/
def checkPort (e : Endian) (gptpProfile : Bool) (portState : BitVec 32) (recBuf : List Byte)
    (requests : List GetReq) (reply : Reply) : PtpCheck :=
  let (sanePortState, portState) := getPortStatus e recBuf portState
  if portState = slave.setWidth 32 then
    let timeReq := buildPtpRequest e tlvTimeStatusNp gptpProfile
    match sendWaitRecv reply recBuf with
    | (.failure, _) => ⟨some .failure, requests ++ [timeReq]⟩
    | (.success, recBuf) => ⟨(getMasterOffset e recBuf).map (verdict sanePortState), requests ++ [timeReq]⟩
  else ⟨some (verdict sanePortState 0), requests⟩

/-- `opened` is the success of `init_sockets`, `portState` what the variable holds uninitialised, `reply k` becomes of
request `k`. -/
def checkPtpOffset (e : Endian) (opened : Bool) (portState : BitVec 32) (reply : Nat → Reply) : PtpCheck :=
  if opened then
    let portReq := buildPtpRequest e tlvPortDataSet false
    match sendWaitRecv (reply 0) (List.replicate 128 0) with
    | (.success, recBuf) => checkPort e false portState recBuf [portReq] (reply 1)
    | (.failure, recBuf) =>
      -- The same request again, for the gPTP profile.
      let portReq' := buildPtpRequest e tlvPortDataSet true
      match sendWaitRecv (reply 1) recBuf with
      | (.success, recBuf) => checkPort e true portState recBuf [portReq, portReq'] (reply 2)
      | (.failure, _) => ⟨some .failure, [portReq, portReq']⟩
  else ⟨some .failure, []⟩

/-! ### check_local_clock -/

/-- What the host answers for an interface: whether the clock of the card can be opened, the three clocks, and the
TAI offset, `none` when `adjtimex` fails. -/
structure Readings where
  phcOpened : Bool
  rt : Timespec
  tai : Timespec
  ptp : Timespec
  adjtimex : Option (BitVec 32)

def utcOffset : BitVec 32 := 37

/-- A failure of `adjtimex` leaves the offset zero. -/
def checkLocalClock (r : Readings) : Option Exit :=
  let phcRt := r.ptp.nanos - r.rt.nanos
  let phcTai := r.ptp.nanos - r.tai.nanos
  let tai := r.adjtimex.getD 0
  (llabs (phcRt - 37 * 1000000000)).bind fun deltaRt =>
    (llabs phcTai).map fun deltaTai =>
      if deltaRt.toInt ≥ 50000 ∨ deltaTai.toInt > 50000 ∨ r.adjtimex = none ∨ tai ≠ utcOffset then .failure
      else .success

/-! ### main -/

structure Args where
  ifname : Text
  verbose : Bool
  deriving DecidableEq

/-- `":d:hv"` and the long options; `--verbose` sets the variable itself and returns 0. -/
def optstring : Spec where
  takes
    | 'd' => some true
    | 'h' | 'v' => some false
    | _ => none
  long := some [⟨"dev".toList, true, 'd'⟩, ⟨"verbose".toList, false, 'v'⟩, ⟨"help".toList, false, 'h'⟩]

/-- One turn of the loop over the options, which the help and a wrong option leave with an exit code. The interface
name is cut to the buffer. -/
def Args.apply (a : Args) : Opt → Except Exit Args
  | .arg 'd' optarg => .ok { a with ifname := optarg.take 15 }
  | .flag 'v' => .ok { a with verbose := true }
  | .flag 'h' => .error .success
  | _ => .error .failure

/-- The exit code. The clock of the card is opened before anything is compared, and its failure exits. -/
def main (e : Endian) (args : List Text) (readings : Text → Readings) (opened : Bool) (portState : BitVec 32)
    (reply : Nat → Reply) : Option Exit :=
  match (optstring.getopt args).foldlM Args.apply ⟨[], false⟩ with
  | .error code => some code
  | .ok a =>
    if a.ifname = [] then some .failure
    else if (readings a.ifname).phcOpened = false then some .failure
    else
      (checkLocalClock (readings a.ifname)).bind fun ret =>
        (checkPtpOffset e opened portState reply).ret.map fun ret' => ret.or ret'

end Mdelay.CheckClock
