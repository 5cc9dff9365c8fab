import TwoKernel.Basic
import TwoKernel.Lib.Chain
import TwoKernel.Lib.System
import TwoKernel.Lib.ByteMem
import TwoKernel.Lib.Trie
import TwoKernel.Std.SingleDeque
import TwoKernel.Proc.Thread
import TwoKernel.Proc.Scheduler
import TwoKernel.Proc.Process
import TwoKernel.Proc.Queued
import TwoKernel.Proc.Calls
import TwoKernel.Memory.Pmm
import TwoKernel.Memory.Arena
import TwoKernel.Memory.Clients
import TwoKernel.Memory.Vmm
import TwoKernel.Laws.Std.SingleDeque
import TwoKernel.Laws.Proc.Core
import TwoKernel.Laws.Proc.Scheduler
import TwoKernel.Laws.Proc.Atomic
import TwoKernel.Laws.Proc.Switch
import TwoKernel.Laws.Proc.Queued
import TwoKernel.Laws.Proc.Places
import TwoKernel.Laws.Proc.Partition
import TwoKernel.Laws.Memory.Pmm
import TwoKernel.Laws.Memory.Clients
import TwoKernel.Laws.Memory.Address
import TwoKernel.Laws.Memory.Frames
import TwoKernel.Laws.Memory.Tables
import TwoKernel.Laws.Memory.Map
import TwoKernel.Laws.Memory.Free
import TwoKernel.Laws.Memory.Build
import TwoKernel.Laws.Memory.Spaces
import TwoKernel.Exe.ElfLoader
import TwoKernel.Exe.Events
import TwoKernel.Laws.Exe.Segments
import TwoKernel.Laws.Exe.Load
import TwoKernel.Laws.Exe.Loader
import TwoKernel.Laws.Exe.Validate
import TwoKernel.Laws.Exe.Reads
import TwoKernel.Laws.Exe.Events
import TwoKernel.Laws.Exe.Writes
import TwoKernel.Laws.Exe.Abort
import TwoKernel.Laws.Memory.Heap
import TwoKernel.Laws.Memory.Misuse
import TwoKernel.Laws.Std.Deques
import TwoKernel.Laws.Proc.RoundRobin
import TwoKernel.Proc.Unlocked
import TwoKernel.Laws.Proc.Unlocked
import TwoKernel.Laws.Proc.Dispatch
import TwoKernel.Laws.Proc.Follow
import TwoKernel.Laws.Proc.Context
import TwoKernel.Laws.Proc.Traced
import TwoKernel.Laws.Proc.Masking
import TwoKernel.Laws.Proc.Quantum
import TwoKernel.Laws.Proc.Exit
import TwoKernel.Laws.Memory.Ledger
import TwoKernel.Laws.Memory.Teardown
import TwoKernel.Laws.Memory.Boot
import TwoKernel.Laws.Proc.Rotation
import TwoKernel.Laws.Proc.Postponed
import TwoKernel.Laws.Proc.Spurious
import TwoKernel.Laws.Proc.Purge
import TwoKernel.Laws.Proc.Sleepers
import TwoKernel.Laws.Std.RingBuffer
import TwoKernel.Drivers.Ps2
import TwoKernel.Laws.Drivers.Ps2
import TwoKernel.Arch.Entry
import TwoKernel.Laws.Arch.Swapgs
import TwoKernel.Laws.Memory.FirstFit
import TwoKernel.Laws.Std.Drain
import TwoKernel.Laws.Util.Terminal
import TwoKernel.Laws.Util.Spinlocks
import TwoKernel.Laws.Memory.Unmap
import TwoKernel.Laws.Memory.Permissions
import TwoKernel.Laws.Exe.EntryPoint
import TwoKernel.Laws.Libc.String
import TwoKernel.Laws.Exe.Resident
import TwoKernel.Laws.Util.Digits
import TwoKernel.Laws.Util.Format
import TwoKernel.Laws.Util.Printing
import TwoKernel.Laws.Util.Formatter
import TwoKernel.Arch.Cpu
import TwoKernel.Arch.Stubs
import TwoKernel.Laws.Arch.Cpu
import TwoKernel.Laws.Arch.Frames
import TwoKernel.Util.Processors
import TwoKernel.Laws.Util.Processors
import TwoKernel.Memory.Shared
import TwoKernel.Laws.Memory.Midway
import TwoKernel.Laws.Memory.Shared
import TwoKernel.Arch.Irq
import TwoKernel.Laws.Proc.Saved
import TwoKernel.Laws.Arch.Irq
import TwoKernel.Arch.Descriptors
import TwoKernel.Laws.Arch.Descriptors
import TwoKernel.Proc.Preempt
import TwoKernel.Laws.Proc.WayOut
import TwoKernel.Laws.Proc.Preempt
import TwoKernel.Laws.Memory.Protection
import TwoKernel.Laws.Proc.Waiting
import TwoKernel.Laws.Util.Typing
