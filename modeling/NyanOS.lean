import NyanOS.Ata
import NyanOS.Pipes.Transfer
import NyanOS.Pipes.Wakeup
import NyanOS.Kmalloc.Safety
import NyanOS.Kmalloc.FreeList
import NyanOS.Memory.Pmm
import NyanOS.Memory.PageTable
import NyanOS.Memory.Tree
import NyanOS.Memory.Walk
import NyanOS.Memory.Copy
import NyanOS.Memory.Space
import NyanOS.Memory.SpaceOps
import NyanOS.Memory.View
import NyanOS.Memory.Effects
import NyanOS.Memory.Region
import NyanOS.Memory.System
import NyanOS.Memory.Eager
import NyanOS.Memory.Growth
import NyanOS.Memory.Abstraction
import NyanOS.Memory.Refinement
import NyanOS.Memory.Lifecycle
import NyanOS.Memory.Accounting
import NyanOS.Fat.Model
import NyanOS.Sched.Frame
import NyanOS.Sched.Ring
import NyanOS.Sched.Steps
import NyanOS.Sched.Runs
import NyanOS.Ipc.Handles
import NyanOS.Ipc.Fifo
import NyanOS.Memory.UserAccess
import NyanOS.Ipc.Zombie
import NyanOS.Sched.Wait
import NyanOS.Windows.List
import NyanOS.Windows.Effects
import NyanOS.Windows.Pointers
import NyanOS.Files.Lock
import NyanOS.Ipc.WaitLists
import NyanOS.Files.Model
import NyanOS.Files.Refs
import NyanOS.Files.Exact
import NyanOS.Files.Calls
import NyanOS.Files.Fork
import NyanOS.Memory.Ledger
import NyanOS.Memory.Mmap
import NyanOS.Memory.Heap
import NyanOS.Libc.Safety
import NyanOS.Syscall.Descriptor
import NyanOS.Syscall.UserStrings
import NyanOS.Shm.Lifetime
import NyanOS.Memory.KernelRegions
import NyanOS.Elf.Loader
import NyanOS.Elf.Untouched
import NyanOS.EventQueue
import NyanOS.Memory.Translate
import NyanOS.Libc.Process
import NyanOS.Windows.Creation
import NyanOS.Windows.ZOrder
import NyanOS.Fat.Files
import NyanOS.Fat.Invisible
import NyanOS.Fat.Copies
import NyanOS.Lib.Rect
import NyanOS.Windows.Clip
import NyanOS.Windows.ClipCover
import NyanOS.Windows.Desk
import NyanOS.Windows.Compositor
import NyanOS.Windows.HitTest
import NyanOS.Windows.Dragging
import NyanOS.Windows.Drawing
import NyanOS.Nyamo.Model
import NyanOS.Nyamo.Rows
import NyanOS.Nyamo.Lines
import NyanOS.Nyamo.Keys
import NyanOS.Memory.UpperHalf
import NyanOS.Memory.AddressSpaces
import NyanOS.Memory.SharedKernel
import NyanOS.Memory.ShmSize
import NyanOS.Memory.KernelHalf
import NyanOS.Lib.Stack
import NyanOS.Arch.Machine
import NyanOS.Arch.SyscallEntry
import NyanOS.Arch.ForkContext
import NyanOS.Vfs.ResolvePath
import NyanOS.Vfs.Buffers
import NyanOS.Vfs.Navigate
import NyanOS.Memory.FailedFork
import NyanOS.Memory.OutOfMemory
import NyanOS.Terminal.Ansi
import NyanOS.Terminal.Screen
import NyanOS.Terminal.Alternate
import NyanOS.Terminal.Params
import NyanOS.Elf.Image
import NyanOS.Fat.Names
import NyanOS.Fat.View
import NyanOS.Lib.Refine
import NyanOS.Fat.Allocation
import NyanOS.Fat.Chains
import NyanOS.Fat.Directory
import NyanOS.Fat.Creation
import NyanOS.Lib.Links
import NyanOS.Fat.NewDirectory
import NyanOS.Fat.Lookup
import NyanOS.Tar.Archive
import NyanOS.Tar.Model
import NyanOS.Tar.Listing
