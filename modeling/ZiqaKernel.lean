import ZiqaKernel.EditorFind
import ZiqaKernel.ZiqaFsJournal
import ZiqaKernel.ZiqaFsCounters
import ZiqaKernel.ZiqaFsFsck
import ZiqaKernel.CapabilityRevoke
import ZiqaKernel.CapabilityRequest
import ZiqaKernel.EbpfMemory
import ZiqaKernel.PipeStream
import ZiqaKernel.FailedReads
import ZiqaKernel.DescriptorCopies
import ZiqaKernel.ProcessFork
import ZiqaKernel.Munmap
import ZiqaKernel.Mprotect
import ZiqaKernel.VmaLayout
import ZiqaKernel.Snapshot
import ZiqaKernel.EditorSave
import ZiqaKernel.WorkerPool
import ZiqaKernel.SchedulerExits
import ZiqaKernel.FutexQueues
import ZiqaKernel.Waitpid
import ZiqaKernel.Signals
import ZiqaKernel.WaitQueues
import ZiqaKernel.PageCache
import ZiqaKernel.SleepTimer
import ZiqaKernel.WasmTotal
import ZiqaKernel.SchemeLocks
import ZiqaKernel.SocketOwnership
import ZiqaKernel.Paths
import ZiqaKernel.ZiqaFsInodeSlots
import ZiqaKernel.ZiqaFsDirBlock
import ZiqaKernel.Fat32Read
import ZiqaKernel.ZiqaFsTruncate
import ZiqaKernel.ZiqaFsMappers
import ZiqaKernel.Rects
import ZiqaKernel.EditDistance
import ZiqaKernel.InetChecksum
import ZiqaKernel.KernelLog
import ZiqaKernel.PagePattern
import ZiqaKernel.Blitter
import ZiqaKernel.Crc
import ZiqaKernel.ElfImage
