import Dlutos.AddressSpace.AreaRuns
import Dlutos.AddressSpace.ConcurrentCalls
import Dlutos.AddressSpace.EmptyMappings
import Dlutos.AddressSpace.FaultResolution
import Dlutos.AddressSpace.ForkIsolation
import Dlutos.AddressSpace.PageLedger
import Dlutos.AddressSpace.PrivateFile
import Dlutos.AddressSpace.TableWalks
import Dlutos.Block.AhciPort
import Dlutos.Block.VirtioTransfer
import Dlutos.Buddy.Runs
import Dlutos.FileCache.FileRuns
import Dlutos.FileCache.SharedMapping
import Dlutos.Files.Descriptors
import Dlutos.Files.IovStream
import Dlutos.Files.OpenCountRuns
import Dlutos.Files.UserString
import Dlutos.PageAlloc.Accounting
import Dlutos.Pipe.PipeReports
import Dlutos.Pipe.PipeRuns
import Dlutos.Processes.FatalSignal
import Dlutos.Processes.ProgramLoader
import Dlutos.Processes.TableRuns
import Dlutos.Runtime.TimerProtocol
import Dlutos.Runtime.Wakers
import Dlutos.Signals.InterruptibleWait
import Dlutos.Signals.SignalMask
import Dlutos.Signals.SignalReturn
import Dlutos.Signals.StopResume
import Dlutos.Slab.Runs
import Dlutos.Sync.LazyLock
import Dlutos.Sync.Locks
import Dlutos.Sync.RcuPointer
import Dlutos.Sync.RobustList
import Dlutos.Sync.WaitHandleProtocol
import Dlutos.Vfs.DirectoryListing
import Dlutos.Vfs.DirectoryTree
import Dlutos.Vfs.LinkCounts
import Dlutos.Vfs.RcuListReaders
import Dlutos.Vfs.WorkingDirectory
