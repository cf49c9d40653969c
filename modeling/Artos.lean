import Artos.AtomicObjects
import Artos.Suspension
import Artos.TimeSlices
import Artos.Timers
import Artos.Boosts
import Artos.Board
import Artos.Partition
import Artos.Ownership
import Artos.Tokens
import Artos.Queues
import Artos.Wakeups
import Artos.Promptness
import Artos.FlatScan
import Artos.NoTrace
import Artos.Twins
import Artos.Deadlines
import Artos.Timeouts
import Artos.Unnested
import Artos.WakeFlags
import Artos.ListRuns
import Artos.Cortex
import Artos.Faults
import Artos.Port
import Artos.Contexts
import Artos.ListMemory
import Artos.Assertions
