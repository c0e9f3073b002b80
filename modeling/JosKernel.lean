import JosKernel.Lib.Fallible
import JosKernel.Lib.Linked
import JosKernel.Lib.Counting
import JosKernel.Lib.Radix
import JosKernel.Lib.Transition
import JosKernel.Arch.Mmu
import JosKernel.Arch.Entries
import JosKernel.Pmap.Memory
import JosKernel.Pmap.Hardware
import JosKernel.Pmap.Lookup
import JosKernel.Pmap.Layout
import JosKernel.Pmap.Updates
import JosKernel.Pmap.Trees
import JosKernel.Pmap.Growth
import JosKernel.Pmap.Walk
import JosKernel.Pmap.Mapping
import JosKernel.Pmap.Operations
import JosKernel.Pmap.Agreement
import JosKernel.Pmap.Unmapping
import JosKernel.Pmap.PageTree
import JosKernel.Pmap.Boot
import JosKernel.Pmap.Insertion
import JosKernel.Pmap.Spaces
import JosKernel.Pmap.Detach
import JosKernel.Pmap.UserMem
import JosKernel.Pmap.Access
import JosKernel.Pmap.Runs
import JosKernel.Env.State
import JosKernel.Env.Teardown
import JosKernel.Env.Lifecycle
import JosKernel.Env.Boot
import JosKernel.Env.Incarnations
import JosKernel.Sched.Yield
import JosKernel.Sched.Slots
import JosKernel.Env.Views
import JosKernel.Env.Evolution
import JosKernel.Syscall.Pages
import JosKernel.Syscall.Outcomes
import JosKernel.Syscall.Permissions
import JosKernel.Syscall.Table
import JosKernel.Syscall.Insertions
import JosKernel.Syscall.Exhaustion
import JosKernel.Trap.Entry
import JosKernel.Sched.Exclusive
import JosKernel.Sched.Calls
import JosKernel.Trap.Evolution
import JosKernel.System.Machine
import JosKernel.System.Exclusion
import JosKernel.Console.Printfmt
import JosKernel.Syscall.Cputs
import JosKernel.Pmap.Counts
import JosKernel.Env.Loading
import JosKernel.Env.Loaded
import JosKernel.Env.Booted
import JosKernel.Env.Footprint
import JosKernel.System.Sound
import JosKernel.Env.Reclaim
import JosKernel.System.Freeing
import JosKernel.Env.Generations
import JosKernel.System.Messages
import JosKernel.System.Receiving
import JosKernel.System.Single
import JosKernel.System.Interrupts
import JosKernel.Lib.Bus
import JosKernel.Lib.X64
import JosKernel.Pmap.Detect
import JosKernel.Pmap.Multiboot
import JosKernel.Pmap.RealMemory
import JosKernel.Trap.Delivery
import JosKernel.Trap.Stubs
import JosKernel.Pmap.BootAlloc
import JosKernel.Pmap.MapSort
import JosKernel.Pmap.DebugSections
import JosKernel.Pmap.KernelWindows
import JosKernel.Pmap.ReadOnly
import JosKernel.Pmap.Window
import JosKernel.System.Window
import JosKernel.Pmap.Mmio
import JosKernel.Lib.Coverage
import JosKernel.Pmap.Overlaps
import JosKernel.Console.Buffers
import JosKernel.Console.Delivery
import JosKernel.Console.Progress
import JosKernel.Lib.Circular
import JosKernel.Sched.Rounds
import JosKernel.System.Rounds
import JosKernel.System.Resident
import JosKernel.Pmap.Reports
import JosKernel.Program.Cells
import JosKernel.Program.Elf
import JosKernel.Program.Image
import JosKernel.Console.Cga
import JosKernel.Console.Input
import JosKernel.Console.Readline
import JosKernel.Debug.Copies
import JosKernel.Debug.Headers
import JosKernel.Debug.Numbers
import JosKernel.Lib.Distribution
import JosKernel.Lib.Tokens
import JosKernel.Monitor.Runcmd
import JosKernel.Pmap.CheckFreeList
import JosKernel.Pmap.DoubleFree
import JosKernel.Smp.Locking
import JosKernel.Smp.Mpconfig
import JosKernel.Debug.Lookups
import JosKernel.System.Resuming
import JosKernel.System.Isolation
import JosKernel.System.Authority
import JosKernel.System.Protection
import JosKernel.System.Delivery
import JosKernel.System.Strangers
import JosKernel.Trap.Upcall
import JosKernel.System.Faults
import JosKernel.Lib.Leb128
import JosKernel.Lib.LineProgram
import JosKernel.Debug.Leb
import JosKernel.Debug.Lineno
import JosKernel.Debug.LineTable
import JosKernel.Debug.Srclines
import JosKernel.Smp.Startup
import JosKernel.Lib.Sieve
import JosKernel.User.Primes
import JosKernel.User.Passing
