import SkinnyArm.Library.ByteMemory
import SkinnyArm.Library.Chain
import SkinnyArm.Library.Forest
import SkinnyArm.Library.Missing
import SkinnyArm.Library.Transition
import SkinnyArm.Library.While
import SkinnyArm.Library.Pool
import SkinnyArm.Library.Cyclic
import SkinnyArm.Library.AddressSpace
import SkinnyArm.Library.AArch64
import SkinnyArm.Library.Newc
import SkinnyArm.Kernel.Boot
import SkinnyArm.Kernel.Entry
import SkinnyArm.Kernel.Kalloc
import SkinnyArm.Kernel.Strings
import SkinnyArm.Kernel.Vmem
import SkinnyArm.Kernel.UserContext
import SkinnyArm.Kernel.ExceptionVector
import SkinnyArm.Kernel.Rootfs
import SkinnyArm.Kernel.Lock
import SkinnyArm.Kernel.Process
import SkinnyArm.Kernel.Uart
import SkinnyArm.Allocator.Init
import SkinnyArm.Allocator.Run
import SkinnyArm.Allocator.Footprint
import SkinnyArm.PageTree.Walk
import SkinnyArm.PageTree.Invariant
import SkinnyArm.PageTree.Attach
import SkinnyArm.PageTree.Lookup
import SkinnyArm.PageTree.Run
import SkinnyArm.PageTree.LeafEntry
import SkinnyArm.PageTree.EntryBits
import SkinnyArm.PageTree.Space
import SkinnyArm.PageTree.Hardware
import SkinnyArm.PageTree.Clone
import SkinnyArm.PageTree.Teardown
import SkinnyArm.PageTree.Detach
import SkinnyArm.PageTree.Region
import SkinnyArm.PageTree.Cost
import SkinnyArm.PageTree.FreePage
import SkinnyArm.PageTree.FreeEffect
import SkinnyArm.PageTree.Rollback
import SkinnyArm.UserCopy.Rounds
import SkinnyArm.UserCopy.Bounds
import SkinnyArm.UserCopy.Contents
import SkinnyArm.UserCopy.Lookups
import SkinnyArm.UserCopy.Hidden
import SkinnyArm.UserCopy.Calls
import SkinnyArm.UserCopy.Kinds
import SkinnyArm.PageTree.Memory
import SkinnyArm.Boot.ClearBss
import SkinnyArm.Boot.KernelTable
import SkinnyArm.Boot.Budget
import SkinnyArm.Boot.Coverage
import SkinnyArm.Boot.Ramfs
import SkinnyArm.Boot.ArchiveLost
import SkinnyArm.Context.Switch
import SkinnyArm.Context.Trap
import SkinnyArm.Context.Nesting
import SkinnyArm.Uart.Interrupt
import SkinnyArm.Uart.Console
import SkinnyArm.Uart.Completion
import SkinnyArm.Rootfs.Scan
import SkinnyArm.Rootfs.Inodes
import SkinnyArm.Rootfs.Step
import SkinnyArm.Rootfs.Children
import SkinnyArm.Rootfs.Occupants
import SkinnyArm.Rootfs.Tables
import SkinnyArm.Rootfs.Fields
import SkinnyArm.Rootfs.Names
import SkinnyArm.Rootfs.Hex
import SkinnyArm.Rootfs.Archive
import SkinnyArm.Rootfs.Contents
import SkinnyArm.Rootfs.Search
import SkinnyArm.Rootfs.Acceptance
import SkinnyArm.Rootfs.Capacity
import SkinnyArm.Rootfs.Errors
import SkinnyArm.Rootfs.Termination
import SkinnyArm.Rootfs.Links
import SkinnyArm.Rootfs.Tree
import SkinnyArm.Rootfs.Union
import SkinnyArm.Rootfs.Listing
import SkinnyArm.Lock.SpinLock
import SkinnyArm.Lock.Progress
import SkinnyArm.Lock.Starvation
import SkinnyArm.Lock.Interrupts
import SkinnyArm.Lock.SleepLock
import SkinnyArm.Lock.Wakeup
import SkinnyArm.Lock.Liveness
import SkinnyArm.Lock.Deadlock
import SkinnyArm.Process.Scheduler
import SkinnyArm.Process.Machine
import SkinnyArm.Process.Fork
import SkinnyArm.Process.GetPid
import SkinnyArm.Process.Frames
import SkinnyArm.Process.ForkEffect
import SkinnyArm.Process.ForkCopies
import SkinnyArm.Process.Kill
import SkinnyArm.Process.Sleep
import SkinnyArm.Process.Lifecycle
import SkinnyArm.Process.Pid
import SkinnyArm.Process.Resume
import SkinnyArm.Process.Waiting
import SkinnyArm.Process.Shared
import SkinnyArm.Process.Separation
import SkinnyArm.UserCopy.Isolation
import SkinnyArm.Boot.ProcessTable
