import Xv6.Board.Reserved
import Xv6.Boot.Geometry
import Xv6.Boot.Orphans
import Xv6.Boot.Replay
import Xv6.Coop.Logic
import Xv6.Coop.Pool
import Xv6.Coop.Prog
import Xv6.Coop.Sequential
import Xv6.Coop.Steady
import Xv6.Data.Bytes
import Xv6.Data.Crc32
import Xv6.Data.Fifo
import Xv6.Data.Ring
import Xv6.Data.SlotTable
import Xv6.Data.Windows
import Xv6.Data.Words
import Xv6.Fs.Brackets
import Xv6.Fs.Calls
import Xv6.Fs.Contents
import Xv6.Fs.Create
import Xv6.Fs.Dir
import Xv6.Fs.DirMap
import Xv6.Fs.Edits
import Xv6.Fs.Exhaustion
import Xv6.Fs.Failures
import Xv6.Fs.Guarantees
import Xv6.Fs.Inode
import Xv6.Fs.Paths
import Xv6.Fs.Reclaim
import Xv6.Fs.Resolution
import Xv6.Fs.SelfLock
import Xv6.Fs.Syscall
import Xv6.Fs.Trace
import Xv6.Fs.Writing
import Xv6.Ipc.Pipe
import Xv6.Ipc.PipeGuarantees
import Xv6.Ipc.PipeInv
import Xv6.Ipc.PipeReport
import Xv6.Ipc.Sleeplock
import Xv6.Irq.Spinlock
import Xv6.Irq.Switch
import Xv6.Kernel.Boot
import Xv6.Kernel.CopyOut
import Xv6.Kernel.Endpoints
import Xv6.Kernel.Fork
import Xv6.Kernel.Freelist
import Xv6.Kernel.Guarantees
import Xv6.Kernel.Memory
import Xv6.Kernel.Ownership
import Xv6.Kernel.PipeCall
import Xv6.Kernel.Pipes
import Xv6.Kernel.Rollback
import Xv6.Kernel.Runs
import Xv6.Kernel.Slots
import Xv6.Kernel.System
import Xv6.Memlayout
import Xv6.Mkfs
import Xv6.Mkfs.Agreement
import Xv6.Mkfs.Bitmap
import Xv6.Param
import Xv6.Process.Effect
import Xv6.Process.Guarantees
import Xv6.Process.Steps
import Xv6.Process.Table
import Xv6.Riscv.Hart
import Xv6.Riscv.Sv39
import Xv6.Sd.Acceptance
import Xv6.Sd.Gpt
import Xv6.Sd.Image
import Xv6.Storage.Alone
import Xv6.Storage.Bio
import Xv6.Storage.BioInv
import Xv6.Storage.Cache
import Xv6.Storage.Guarantees
import Xv6.Storage.Header
import Xv6.Storage.Log
import Xv6.Storage.Recency
import Xv6.Storage.Recover
import Xv6.Storage.State
import Xv6.Storage.Store
import Xv6.Storage.StoreBio
import Xv6.Storage.StoreCommit
import Xv6.Storage.StoreOps
import Xv6.Storage.StoreStages
import Xv6.Storage.StoreView
import Xv6.Trap.Devices
import Xv6.Trap.Dispatch
import Xv6.Trap.Trampoline
import Xv6.Trap.Usertrap
import Xv6.Virtio.Completions
import Xv6.Virtio.Disk
import Xv6.Virtio.Guarantees
import Xv6.Virtio.Partition
import Xv6.Virtio.Queue
import Xv6.Vm.Copy
import Xv6.Vm.Growth
import Xv6.Vm.Hardware
import Xv6.Vm.Leaves
import Xv6.Vm.Own
import Xv6.Vm.Pte
import Xv6.Vm.Safe
import Xv6.Vm.Space
import Xv6.Vm.Translation
import Xv6.Vm.User
import Xv6.Vm.UserCopy
