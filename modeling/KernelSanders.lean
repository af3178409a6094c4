import KernelSanders.Threads.DonationTermination
import KernelSanders.Threads.LockRelease
import KernelSanders.Threads.Condition
import KernelSanders.Threads.SchedulerOrder
import KernelSanders.Filesys.RwLockProgress
import KernelSanders.Filesys.CacheRecency
import KernelSanders.Filesys.WriteFailure
import KernelSanders.Filesys.ConcurrentExtension
import KernelSanders.Filesys.CacheConcurrency
import KernelSanders.Userprog.ProcessSlots
import KernelSanders.Userprog.ProcessThreads
import KernelSanders.Vm.Pinning
import KernelSanders.Userprog.Arguments
import KernelSanders.Filesys.Free
import KernelSanders.Userprog.ReadWrite
import KernelSanders.Userprog.MmapWriteBack
import KernelSanders.Kernel.Division
import KernelSanders.Kernel.Hash
import KernelSanders.Stdlib.Sort
import KernelSanders.Booter.Game
import KernelSanders.Devices.Partition
import KernelSanders.Threads.MlfqsBounds
import KernelSanders.Shell.Mysh
