import Mdelay.Library.Transition
import Mdelay.Library.Room
import Mdelay.Library.Overrun
import Mdelay.Library.ByteOrder
import Mdelay.Model.Wire
import Mdelay.Proofs.HeaderRoundTrip
import Mdelay.Library.Text
import Mdelay.Model.Socket
import Mdelay.Model.Master
import Mdelay.Model.Slave
import Mdelay.Proofs.Recording
import Mdelay.Proofs.Counter
import Mdelay.Proofs.ResultFile
import Mdelay.Proofs.Sending
import Mdelay.Proofs.Delay
import Mdelay.Proofs.Index
import Mdelay.Proofs.Framing
import Mdelay.Protocol.Exchange
import Mdelay.Protocol.Provenance
import Mdelay.Protocol.Delivery
import Mdelay.Library.Related
import Mdelay.Proofs.Receiving
import Mdelay.Proofs.Refinement
import Mdelay.Proofs.Simulation
import Mdelay.Proofs.Timestamps
import Mdelay.Proofs.EndToEnd
import Mdelay.Protocol.Workload
import Mdelay.Proofs.Termination
import Mdelay.Proofs.Skew
import Mdelay.Proofs.LoopExit
import Mdelay.Proofs.Beyond
import Mdelay.Proofs.Allocation
import Mdelay.Proofs.Direction
import Mdelay.Model.Call
import Mdelay.Proofs.Attribution
import Mdelay.Proofs.SenderTrace
import Mdelay.Proofs.FailedReads
import Mdelay.Proofs.Replies
import Mdelay.Proofs.Reads
import Mdelay.Proofs.ControlRoom
import Mdelay.Proofs.OnePeer
import Mdelay.Proofs.ShortReceive
import Mdelay.Proofs.Finality
import Mdelay.Proofs.Requests
import Mdelay.Proofs.TimestampArray
import Mdelay.Protocol.Losses
import Mdelay.Proofs.Losses
import Mdelay.Library.Getopt
import Mdelay.Model.Options
import Mdelay.Proofs.Options
import Mdelay.Library.Checksum
import Mdelay.Model.Frame
import Mdelay.Model.Rx
import Mdelay.Model.Reference
import Mdelay.Model.Beyond
import Mdelay.Protocol.Echo
import Mdelay.Proofs.Frame
import Mdelay.Proofs.Rx
import Mdelay.Proofs.Reference
import Mdelay.Proofs.RxBeyond
import Mdelay.Proofs.Completion
import Mdelay.Model.CheckClock
import Mdelay.Proofs.CheckClock
import Mdelay.Model.DebugServer
import Mdelay.Proofs.DebugServer
import Mdelay.Model.Stream
import Mdelay.Protocol.Line
import Mdelay.Proofs.Misread
import Mdelay.Proofs.Stream
import Mdelay.Proofs.Connection
