import LensorOS.Containers.Sorting
import LensorOS.Kernel.BufferRecycling
import LensorOS.Kernel.Connections
import LensorOS.Kernel.DescriptorChecks
import LensorOS.Kernel.Events
import LensorOS.Kernel.Exec
import LensorOS.Kernel.MountRouting
import LensorOS.Kernel.PipeWaits
import LensorOS.Kernel.SocketStreams
import LensorOS.Libc.AllocationSizes
import LensorOS.Libc.ExitHandlers
import LensorOS.Libc.Format
import LensorOS.Libc.LineInput
import LensorOS.Libc.StreamOutput
import LensorOS.Libc.StreamSeek
import LensorOS.Memory.AlignedAllocation
import LensorOS.Memory.ForkPermissions
import LensorOS.Memory.HeapCoalescing
import LensorOS.Memory.IdentityMap
import LensorOS.Memory.InitPhysical
import LensorOS.Memory.InitialStack
import LensorOS.Memory.PageOwnership
import LensorOS.Memory.PageWalk
import LensorOS.Pointers.PointerRuns
import LensorOS.Scheduler.Lifetimes
import LensorOS.Scheduler.Reports
import LensorOS.Scheduler.WaitPid
import LensorOS.Storage.Compaction
import LensorOS.Storage.Utf
import LensorOS.Storage.Transfers
import LensorOS.Strings.Capacity
import LensorOS.Strings.Comparison
import LensorOS.Strings.Editing
import LensorOS.Strings.Search
