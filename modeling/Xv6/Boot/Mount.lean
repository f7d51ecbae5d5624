import Xv6.Fs.Inode
import Xv6.Coop.Sequential

/-!
# Mounting the file system at boot

`fsinit` and the part of `main` around it. Nothing else runs at that time, so every buffer has the
contents of its block, and only the sleep locks are kept, by what they protect.

`events` records, newest first, each operation on a sleep lock with the process that executes it, each
index into the two arrays of log headers, each home block that recovery writes, and the stages of the boot.
The header block is followed in memory by other data, which `behind` holds; `waits` says in which transfers
the device has not answered when the driver looks.

A load through `myproc()` when there is no process faults, and `kerneltrap` panics.
-/

namespace Xv6.Boot

open Data Coop Prog Storage Fs

inductive SleepOp
  | acquiresleep
  | holdingsleep
  | sleep
  deriving DecidableEq

inductive Event
  | sleepOp (op : SleepOp) (proc : Option Pid)
  /-- `hb->block[k]`. -/
  | head (k : Nat)
  /-- `log.lh.block[k]`. -/
  | slot (k : Nat)
  /-- The write of a home block in `install_trans`. -/
  | home (b : UInt32)
  | unmounted
  | recovered
  | rootChecked
  | published
  deriving DecidableEq

/-- The sleep locks: those of the buffers, by block number, and that of the root inode. -/
inductive Lock
  | buf (b : UInt32)
  | root
  deriving DecidableEq

/-- The registers of the device that `virtio_disk_init` tests. -/
structure Regs where
  magic : UInt32
  version : UInt32
  deviceId : UInt32
  vendorId : UInt32
  queueNumMax : UInt32

structure Machine where
  proc : Option Pid
  regs : Regs
  disk : Nat → Block
  behind : Nat → UInt32
  waits : Nat → Bool
  locked : List Lock := []
  sb : Superblock := default
  n : UInt32 := 0
  lh : Nat → UInt32 := fun _ => 0
  events : List Event := []

def note (e : Event) : Prog Machine Unit := modify fun m => { m with events := e :: m.events }

/-! ## Sleep locks and buffers -/

/-- `myproc()->pid`. -/
def currentPid : Prog Machine Unit := check (fun m => m.proc.isSome) "unexpected supervisor exception"

def noteSleepOp (op : SleepOp) : Prog Machine Unit :=
  modify fun m => { m with events := .sleepOp op m.proc :: m.events }

def sleepOn (g : Machine → Bool) : Prog Machine Unit := do
  noteSleepOp .sleep
  currentPid
  sleep g (ret ())

def acquiresleep (l : Lock) : Prog Machine Unit := do
  noteSleepOp .acquiresleep
  let locked ← gets fun m => decide (l ∈ m.locked)
  if locked then sleepOn fun m => decide (l ∉ m.locked)
  currentPid
  modify fun m => { m with locked := l :: m.locked }

def releasesleep (l : Lock) : Prog Machine Unit := modify fun m => { m with locked := m.locked.erase l }

def holdingsleep (l : Lock) : Prog Machine Bool := do
  noteSleepOp .holdingsleep
  currentPid
  gets fun m => decide (l ∈ m.locked)

/-- The wait of `virtio_disk_rw`; there is none for a block that is in the cache. -/
def virtioDiskRw : Prog Machine Unit := do
  let waits ← gets fun m => m.waits m.events.length
  if waits then sleepOn fun _ => true

def breadv (b : UInt32) : Prog Machine Unit := do
  acquiresleep (.buf b)
  virtioDiskRw

/-- Store new contents in a buffer and write it. -/
def bwrite (b : UInt32) (d : Machine → Block) : Prog Machine Unit := do
  let holding ← holdingsleep (.buf b)
  if holding then
    modify fun m => { m with disk := Function.update m.disk b.toNat (d m) }
    virtioDiskRw
  else Prog.panic "bwrite"

def brelse (b : UInt32) : Prog Machine Unit := do
  let holding ← holdingsleep (.buf b)
  if holding then releasesleep (.buf b) else Prog.panic "brelse"

/-! ## Recovery -/

/-- `hb->block[k]`, which lies behind the block from index 255 on. -/
def headWord (b : Block) (behind : Nat → UInt32) (k : Nat) : UInt32 :=
  if 4 * k + 8 ≤ BSIZE then b.u32 (4 + 4 * k) else behind k

def Machine.word (m : Machine) (k : Nat) : UInt32 := headWord (m.disk m.sb.logstart.toNat) m.behind k

/-- The test of one entry in `read_head`. -/
def possible (sb : Superblock) (b : UInt32) : Bool := decide (sb.nlog + sb.logstart ≤ b ∧ b < sb.size)

/-- One iteration of the first loop of `read_head`. -/
def validateBody (k : Nat) : Prog Machine Unit := do
  note (.head k)
  check (fun m => possible m.sb (m.word k)) "log: impossible block number"

/-- One iteration of the second loop of `read_head`. -/
def copyBody (k : Nat) : Prog Machine Unit := do
  note (.head k)
  note (.slot k)
  modify fun m => { m with lh := Function.update m.lh k (m.word k) }

def readHead : Prog Machine Unit := do
  let sb ← gets Machine.sb
  breadv sb.logstart
  let n ← gets fun m => (m.disk sb.logstart.toNat).u32 0
  if s32 n.toNat < 0 ∨ s32 sb.nlog.toNat ≤ s32 n.toNat then
    brelse sb.logstart
    Prog.panic "log: invalid header count"
  else
    loop validateBody 0 n.toNat
    modify fun m => { m with n := n }
    loop copyBody 0 n.toNat
    brelse sb.logstart

/-- One iteration of `install_trans`. -/
def installBody (tail : Nat) : Prog Machine Unit := do
  let lbuf ← gets fun m => m.sb.logstart + UInt32.ofNat tail + 1
  breadv lbuf
  note (.slot tail)
  let dbuf ← gets fun m => m.lh tail
  breadv dbuf
  bwrite dbuf fun m => m.disk lbuf.toNat
  note (.home dbuf)
  brelse lbuf
  brelse dbuf

def installTrans : Prog Machine Unit := do
  let n ← gets Machine.n
  loop installBody 0 n.toNat

/-- `write_head` with `log.lh.n = 0`. -/
def clearHead : Prog Machine Unit := do
  modify fun m => { m with n := 0 }
  let start ← gets fun m => m.sb.logstart
  breadv start
  bwrite start fun m => (m.disk start.toNat).putU32 0 0
  brelse start

def recoverFromLog : Prog Machine Unit := do
  readHead
  installTrans
  clearHead

/-! ## The superblock -/

def readsb : Prog Machine Unit := do
  breadv 1
  modify fun m => { m with sb := Superblock.decode (m.disk 1) }
  brelse 1

def checkSb (c : Superblock → Bool) (msg : String) : Prog Machine Unit := check (fun m => c m.sb) msg

def initlog : Prog Machine Unit := do
  readsb
  checkSb (fun sb => sb.magic == FSMAGIC) "log: bad magic in superblock"
  checkSb (fun sb => decide (0 < sb.nlog ∧ 1 < sb.logstart)) "log: invalid log region"
  checkSb (fun sb => decide (sb.logstart + sb.nlog ≤ sb.size)) "log: log region out of range"
  recoverFromLog

/-- No file system has been made on the device. -/
def blank (sb : Superblock) : Bool :=
  sb.magic == 0 && sb.size == 0 && sb.nlog == 0 && sb.logstart == 0 && sb.ninodes == 0 &&
    sb.inodestart == 0 && sb.bmapstart == 0

/-- The checks of `fsinit`. -/
def checkGeometry : Prog Machine Unit := do
  checkSb (fun sb => sb.magic == FSMAGIC) "invalid file system superblock"
  checkSb (fun sb => decide (0 < sb.size ∧ sb.size ≤ UInt32.ofNat FSSIZE)) "invalid superblock size"
  checkSb (fun sb => decide (0 < sb.nlog ∧ 1 < sb.logstart)) "invalid log region"
  checkSb (fun sb => decide (sb.logstart + sb.nlog ≤ sb.size)) "log region out of range"
  checkSb (fun sb => decide (sb.logstart + sb.nlog ≤ sb.inodestart ∧ sb.inodestart < sb.size))
    "invalid inode region"
  checkSb (fun sb => decide (sb.inodestart ≤ sb.bmapstart ∧ sb.bmapstart < sb.size))
    "invalid bitmap region"

/-! ## The root directory -/

def Machine.root (m : Machine) : Dinode := dinodeAt m.sb m.disk ROOTINO

/-- `log_write` at a time at which no operation is open. -/
def logWrite : Prog Machine Unit := do
  checkSb (fun sb => decide (1 < s32 sb.nlog.toNat)) "log: too big a transaction"
  Prog.panic "log_write outside of transaction"

def bfreeRelease (b : UInt32) : Prog Machine Unit := do
  checkSb (fun sb => decide (b < sb.size)) "bfree: block out of range"
  let bitmap ← gets fun m => m.sb.bmapstart + UInt32.ofNat (b.toNat / BPB)
  breadv bitmap
  check (fun m => (m.disk bitmap.toNat).bit (b.toNat % BPB)) "bfree: freeing a free block"
  logWrite

/-- The end of an `iput` that drops the last reference to a directory without links. Already the first
`log_write` of `itrunc` stops the machine. -/
def reclaimRoot : Prog Machine Unit := do
  acquiresleep .root
  let root ← gets Machine.root
  match (List.range NDIRECT).find? fun k => root.word k != 0 with
  | some k => bfreeRelease (root.word k)
  | none =>
    if root.word NDIRECT = 0 then
      breadv (← gets fun m => m.sb.inodestart)
      logWrite
    else
      breadv (root.word NDIRECT)
      let entries ← gets fun m => m.disk (root.word NDIRECT).toNat
      match (List.range NINDIRECT).find? fun j => entries.u32 (4 * j) != 0 with
      | some j => bfreeRelease (entries.u32 (4 * j))
      | none =>
        brelse (root.word NDIRECT)
        bfreeRelease (root.word NDIRECT)

/-- `iget`, `ilock`, the check, `iunlock` and `iput` of the root inode in an empty inode cache. -/
def checkRoot : Prog Machine Unit := do
  acquiresleep .root
  let block ← gets fun m => m.sb.inodestart
  breadv block
  let root ← gets Machine.root
  brelse block
  if root.type = 0 then Prog.panic "ilock: no type"
  else if root.type = T_DIR then
    let holding ← holdingsleep .root
    if holding then releasesleep .root else Prog.panic "iunlock"
    if root.nlink = 0 then reclaimRoot
    note .rootChecked
  else Prog.panic "fsinit: root not a directory"

def fsinit : Prog Machine Unit := do
  breadv 1
  let probe ← gets fun m => Superblock.decode (m.disk 1)
  brelse 1
  if blank probe then note .unmounted
  else
    readsb
    checkGeometry
    initlog
    note .recovered
    checkRoot

/-! ## The boot -/

/-- The identity and the queue that `virtio_disk_init` accepts. -/
def Regs.Accepted (r : Regs) : Prop :=
  r.magic = 0x74726976 ∧ r.version = 1 ∧ r.deviceId = 2 ∧ r.vendorId = 0x554d4551 ∧ 8 ≤ r.queueNumMax

def virtioDiskInit : Prog Machine Unit := do
  check (fun m => decide (m.regs.magic = 0x74726976 ∧ m.regs.version = 1 ∧ m.regs.deviceId = 2 ∧
    m.regs.vendorId = 0x554d4551)) "could not find virtio disk"
  check (fun m => m.regs.queueNumMax != 0) "virtio disk has no queue 0"
  check (fun m => decide (8 ≤ m.regs.queueNumMax)) "virtio disk max queue too short"

/-- The stages of `main` that read the disk or need it. The memory of the kernel is the subject of
`Kernel.kernelInit`, and `userinit` publishes the first process. -/
def main : Prog Machine Unit := do
  virtioDiskInit
  fsinit
  note .published

/-- The machine when `main` is called: `cpus[0].proc` is zero. -/
def powerOn (regs : Regs) (disk : Nat → Block) (behind : Nat → UInt32) (waits : Nat → Bool) : Machine where
  proc := none
  regs := regs
  disk := disk
  behind := behind
  waits := waits

end Xv6.Boot
