import OsKernel.User.Cat
import OsKernel.Kernel.Console
import OsKernel.Kernel.Pids
import OsKernel.Common.Unalertable
import OsKernel.Fs.InodeLoad
import OsKernel.Fs.Wakeup
import OsKernel.Fs.Durability
import OsKernel.Fs.HeldBlocks
import OsKernel.Fs.Transparency
import OsKernel.Fs.CacheSize
import OsKernel.Fs.CrashAtomic
import OsKernel.Fs.InodeAlloc
import OsKernel.Kernel.FileCalls
import OsKernel.Kernel.SharedPage
import OsKernel.Fs.PipeWait
import OsKernel.Kernel.RunQueue
import OsKernel.Kernel.DescriptorRuns
import OsKernel.Kernel.HeapRuns
import OsKernel.Common.RbSet
import OsKernel.Driver.DiskIo
import OsKernel.Kernel.ReadOnlyFiles
import OsKernel.Kernel.SectionLayout
import OsKernel.Kernel.AddressSpace
import OsKernel.Fs.DirGrowth
import OsKernel.Fs.Namex
import OsKernel.Fs.OpenFiles
