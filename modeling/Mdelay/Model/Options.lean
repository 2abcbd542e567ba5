import Mdelay.Library.Getopt
import Mdelay.Library.Text

/-!
# parse_options

The command lines of the four programs. `none` stands for an exit: a wrong option, or a value the
program refuses.
-/

namespace Mdelay
open Getopt

inductive Protocol where
  | tcp | udp
  deriving DecidableEq

/-- `atoi` into an `unsigned short`. -/
def atoiPort (value : Text) : BitVec 16 := (Text.atoi value).setWidth 16

namespace Master

structure Configuration where
  protocol : Protocol
  slaveIp : Option Text
  sport : BitVec 16
  dport : BitVec 16
  measureNumber : BitVec 32
  deriving DecidableEq

def Configuration.default : Configuration := ⟨.tcp, none, 9336, 9337, 10⟩

/-- `"s:l:d:un:"`, for `getopt`: the table of long options is not used. -/
def optstring : Spec where
  takes
    | 's' | 'l' | 'd' | 'n' => some true
    | 'u' => some false
    | _ => none
  long := none

def Configuration.apply (cfg : Configuration) : Opt → Option Configuration
  | .arg 's' optarg => some { cfg with slaveIp := some optarg }
  | .arg 'l' optarg => some { cfg with sport := atoiPort optarg }
  | .arg 'd' optarg => some { cfg with dport := atoiPort optarg }
  | .flag 'u' => some { cfg with protocol := .udp }
  | .arg 'n' optarg => some { cfg with measureNumber := Text.atoi optarg }
  | _ => none

def parseOptions (args : List Text) : Option Configuration := parse optstring Configuration.apply .default args

end Master

namespace Slave

structure Configuration where
  protocol : Protocol
  measureNumber : BitVec 32
  port : BitVec 16
  deriving DecidableEq

def Configuration.default : Configuration := ⟨.tcp, 0, 9337⟩

/-- `"up:n:"` -/
def optstring : Spec where
  takes
    | 'p' | 'n' => some true
    | 'u' => some false
    | _ => none
  long := none

def Configuration.apply (cfg : Configuration) : Opt → Option Configuration
  | .arg 'n' optarg => some { cfg with measureNumber := Text.atoi optarg }
  | .flag 'u' => some { cfg with protocol := .udp }
  | .arg 'p' optarg => some { cfg with port := atoiPort optarg }
  | _ => none

def parseOptions (args : List Text) : Option Configuration := parse optstring Configuration.apply .default args

end Slave

namespace Rx

structure Configuration where
  cfgIoctl : Option Text
  cfgPort : BitVec 16
  cfgProtocol : Protocol
  cfgMaxPackets : BitVec 32
  deriving DecidableEq

def Configuration.default : Configuration := ⟨none, 9000, .udp, 0⟩

/-- `"i:p:P:n:"` and the long options. -/
def optstring : Spec where
  takes
    | 'i' | 'p' | 'P' | 'n' => some true
    | _ => none
  long := some [⟨"ioctl".toList, true, 'i'⟩, ⟨"port".toList, true, 'p'⟩, ⟨"proto".toList, true, 'P'⟩,
    ⟨"max".toList, true, 'n'⟩, ⟨"ext".toList, false, 'e'⟩]

/-- `strcasecmp` with a text in upper case. -/
def caseEqual (value upper : Text) : Bool := value.map Char.toUpper = upper

def getProtcol (protocol : Text) : Option Protocol :=
  if caseEqual protocol "UDP".toList then some .udp
  else if caseEqual protocol "TCP".toList then some .tcp
  else none

/-- The switch has no case for `--ext`, which so prints the help and exits. -/
def Configuration.apply (cfg : Configuration) : Opt → Option Configuration
  | .arg 'i' optarg => some { cfg with cfgIoctl := some optarg }
  | .arg 'p' optarg => some { cfg with cfgPort := atoiPort optarg }
  | .arg 'P' optarg => (getProtcol optarg).map fun protocol => { cfg with cfgProtocol := protocol }
  | .arg 'n' optarg => some { cfg with cfgMaxPackets := Text.atoi optarg }
  | _ => none

def parseOptions (args : List Text) : Option Configuration := parse optstring Configuration.apply .default args

end Rx

namespace RefSender

structure Configuration where
  cfgIface : Text
  cfgIfidx : BitVec 32
  cfgDport : BitVec 16
  cfgMaxPackets : BitVec 32
  deriving DecidableEq

def Configuration.default : Configuration := ⟨"eth0".toList, 0, 1337, 0⟩

/-- `"i:p:P:n:"` and the long options. -/
def optstring : Spec where
  takes
    | 'i' | 'p' | 'P' | 'n' => some true
    | _ => none
  long := some [⟨"interface".toList, true, 'i'⟩, ⟨"dport".toList, true, 'p'⟩, ⟨"protocol".toList, true, 'P'⟩,
    ⟨"max".toList, true, 'n'⟩]

/-- The host's `if_nametoindex` gives 0 for an interface it does not have. The switch has no case for the
protocol. -/
def Configuration.apply (ifNametoindex : Text → BitVec 32) (cfg : Configuration) : Opt → Option Configuration
  | .arg 'i' optarg =>
    if ifNametoindex optarg = 0 then none
    else some { cfg with cfgIface := optarg, cfgIfidx := ifNametoindex optarg }
  | .arg 'p' optarg => some { cfg with cfgDport := atoiPort optarg }
  | .arg 'n' optarg => some { cfg with cfgMaxPackets := Text.atoi optarg }
  | _ => none

def parseOptions (ifNametoindex : Text → BitVec 32) (args : List Text) : Option Configuration :=
  parse optstring (Configuration.apply ifNametoindex) .default args

end RefSender

end Mdelay
