import Mdelay.Proofs.Beyond
import Mdelay.Proofs.Index

/-!
# The counter and the number of entries

The loop stops counting at `measure_number`, the slave allocates `measure_number` entries and the
master 100. Any datagrams are received here, those a program does not know and failed reads as well.
-/

namespace Mdelay
open ByteOrder Overrun TwoStep Transition

variable {cap : Nat}

/-! ### Runs -/

end Mdelay
