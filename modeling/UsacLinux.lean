import UsacLinux.Lib.ByteMemory
import UsacLinux.Lib.Machine
import UsacLinux.Lib.KeyedList
import UsacLinux.Lib.Transition
import UsacLinux.Lib.Mutex
import UsacLinux.Kernel
import UsacLinux.MemoryLimit.Registry
import UsacLinux.MemoryLimit.GetLimits
import UsacLinux.MemoryLimit.UserCopy
import UsacLinux.MemoryLimit.Refinement
import UsacLinux.MemoryLimit.Independence
import UsacLinux.MemoryLimit.PidLifetime
import UsacLinux.MemoryLimit.Concurrent
import UsacLinux.MemoryLimit.Linearizable
import UsacLinux.MemoryReport
import UsacLinux.UsageTable.Counters
import UsacLinux.UsageTable.Concurrent
import UsacLinux.MemoryLimit.SignedArguments
import UsacLinux.MemoryLimit.Order
import UsacLinux.Lib.Checked
import UsacLinux.ReportArithmetic
import UsacLinux.Lib.Scan
import UsacLinux.StatsModule
import UsacLinux.Tamalloc
import UsacLinux.Lib.Ring
import UsacLinux.MemoryLimit.Nodes
import UsacLinux.Lib.MutexProgress
import UsacLinux.MemoryLimit.Progress
import UsacLinux.MemoryLimit.History
import UsacLinux.MemoryLimit.Visibility
import UsacLinux.Lib.RacyCounter
import UsacLinux.UsageTable.Published
import UsacLinux.UsageTable.Races
import UsacLinux.Lib.ScanGrammar
import UsacLinux.StatsText
import UsacLinux.LazyMemory
import UsacLinux.LazyTotals
import UsacLinux.Snapshot
import UsacLinux.SummaryWalk
import UsacLinux.TamallocTest
