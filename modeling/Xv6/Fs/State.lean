import Xv6.Fs.Layout
import Xv6.Storage.Log
import Mathlib.Data.Finset.Card

/-!
# The file system's state and its block functions

The state that `kernel/fs.c`, `kernel/file.c` and `kernel/sysfile.c` work on. The file system
sees the disk through the buffer cache and the log: `disk b` is what a `bread` of block `b`
returns, that is the contents last passed to `log_write`. Of the log only `struct log` itself is
kept. A `bread` may sleep, so it is a point where other processes run.

Every inode of the cache is on the root device: `iget` is called with `ROOTDEV` or with the
device of another inode. The field `dev` is therefore left out, and so is the comparison of two
devices in `sys_link`.

The component `trace` records what each process is doing. The functions below write it next to
the code they model and never read it.
-/

namespace Xv6.Fs

open Data Coop Prog Storage Function

instance neZero_NINODE : NeZero NINODE := ⟨by decide⟩

/-- `struct inode`; `lock` holds the process that holds the sleep lock. -/
structure Inode where
  inum : Nat := 0
  ref : Nat := 0
  lock : Option Pid := none
  valid : Bool := false
  din : Dinode := {}

inductive FileType
  | none
  | inode
  deriving DecidableEq

/-- `struct file` without the pipe. -/
structure File where
  type : FileType := .none
  ref : Nat := 0
  readable : Bool := false
  writable : Bool := false
  ip : Fin NINODE := 0
  off : UInt32 := 0

/-- What a process sleeps for in `begin_op` and in `acquiresleep` of an inode's lock. -/
inductive Wait
  | admission
  | inode (i : Fin NINODE)
  deriving DecidableEq

/-- `inside` are the processes between a `begin_op` and the next `end_op`, `committer` is the one
whose `end_op` commits, and `waits` says what a process that had to sleep sleeps for. `nested`
collects the pairs of an inode lock and of what its holder had to sleep for. `stray` is set by a
`log_write` of a process that is not inside, and `unbracketed` are the processes that have reclaimed
an inode or allocated a block of a file where they were not inside. -/
structure Trace where
  inside : Finset Pid := ∅
  committer : Option Pid := none
  waits : Pid → Option Wait := fun _ => none
  nested : List (Fin NINODE × Wait) := []
  stray : Bool := false
  unbracketed : Finset Pid := ∅

/-- `alive` are the processes that `fork` has made and that did not exit. The boot makes the first
one. -/
structure State where
  sb : Superblock
  disk : Nat → Block
  log : Log
  icache : Fin NINODE → Inode
  ftable : Fin NFILE → File
  ofile : Pid → Fin NOFILE → Option (Fin NFILE)
  cwd : Pid → Option (Fin NINODE) := fun _ => none
  alive : Pid → Bool := fun p => p == 1
  trace : Trace := {}

namespace State

def setBlock (s : State) (b : Nat) (d : Block) : State :=
  { s with disk := update s.disk b d }

def modInode (s : State) (i : Fin NINODE) (f : Inode → Inode) : State :=
  { s with icache := update s.icache i (f (s.icache i)) }

/-- Change the copy of the on-disk fields in an entry of the inode cache. -/
def modDin (s : State) (i : Fin NINODE) (f : Dinode → Dinode) : State :=
  s.modInode i fun ip => { ip with din := f ip.din }

def modFile (s : State) (f : Fin NFILE) (g : File → File) : State :=
  { s with ftable := update s.ftable f (g (s.ftable f)) }

def setLog (s : State) (l : Log) : State := { s with log := l }

def setOfile (s : State) (p : Pid) (fd : Fin NOFILE) (f : Option (Fin NFILE)) : State :=
  { s with ofile := update s.ofile p (update (s.ofile p) fd f) }

def setCwd (s : State) (p : Pid) (ip : Option (Fin NINODE)) : State :=
  { s with cwd := update s.cwd p ip }

def setAlive (s : State) (p : Pid) (b : Bool) : State :=
  { s with alive := update s.alive p b }

def modTrace (s : State) (f : Trace → Trace) : State := { s with trace := f s.trace }

/-- The copy of the on-disk fields in an entry of the inode cache. -/
def din (s : State) (i : Fin NINODE) : Dinode := (s.icache i).din

/-- A process that sleeps for `w` may go on. -/
def free (s : State) : Wait → Bool
  | .admission => admits s.log
  | .inode i => (s.icache i).lock == none

/-- The entries of the inode cache whose lock the process holds. -/
def held (s : State) (p : Pid) : List (Fin NINODE) :=
  (List.finRange NINODE).filter fun i => decide ((s.icache i).lock = some p)

/-- Record that the process has to sleep for `w`, if it has to. -/
def noteWait (s : State) (p : Pid) (w : Wait) : State :=
  if s.free w then s
  else
    s.modTrace fun t =>
      { t with
        waits := update t.waits p (some w)
        nested := (s.held p).map (fun i => (i, w)) ++ t.nested }

def noteWake (s : State) (p : Pid) : State :=
  s.modTrace fun t => { t with waits := update t.waits p none }

/-- Record a `log_write`. -/
def noteWrite (s : State) (p : Pid) : State :=
  s.modTrace fun t => { t with stray := t.stray || decide (p ∉ t.inside) }

/-- Record that the process reclaims an inode or allocates a block of a file. -/
def noteChange (s : State) (p : Pid) : State :=
  s.modTrace fun t =>
    { t with unbracketed := if p ∈ t.inside then t.unbracketed else insert p t.unbracketed }

end State

/-- Sleep for `w`. -/
def waitFor (p : Pid) (w : Wait) : Prog State Unit := do
  modify fun s => s.noteWait p w
  await fun s => s.free w

/-! ## Blocks and the log -/

def bread (b : Nat) : Prog State Block := do
  pause
  gets fun s => s.disk b

def putBlock (b : Nat) (d : Block) : Prog State Unit := modify fun s => s.setBlock b d

def logWrite (p : Pid) (b : Nat) : Prog State Unit := do
  modify fun s => s.noteWrite p
  check (fun s => fits s.log) "log: too big a transaction"
  check (fun s => decide (1 ≤ s.log.outstanding)) "log_write outside of transaction"
  modify fun s => s.setLog { s.log with lh := addNew s.log.lh b }

/-- `log.outstanding += 1`. -/
def enter (s : State) (p : Pid) : State :=
  ((s.noteWake p).modTrace fun t => { t with inside := insert p t.inside }).setLog
    { s.log with outstanding := s.log.outstanding + 1 }

def beginOp (p : Pid) : Prog State Unit := do
  waitFor p .admission
  modify fun s => enter s p

/-- The section of `end_op` under the log lock. The result says whether the caller commits. -/
def leave (p : Pid) (s : State) : Except String (Bool × State) :=
  let l := { s.log with outstanding := s.log.outstanding - 1 }
  let out := s.modTrace fun t => { t with inside := t.inside.erase p }
  if l.committing then .error "log committing during end_op"
  else if l.outstanding = 0 then
    .ok (true, (out.modTrace fun t => { t with committer := some p }).setLog
      { l with committing := true })
  else .ok (false, out.setLog l)

/-- The end of a commit. -/
def emptied (s : State) : State :=
  (s.modTrace fun t => { t with committer := none }).setLog
    { s.log with lh := [], committing := false }

/-- The commit sleeps and empties the log; it does not change what a `bread` returns. -/
def endOp (p : Pid) : Prog State Unit := do
  let doCommit ← step (leave p)
  if doCommit then
    pause
    modify emptied

/-! ## The allocation bitmap -/

def bzeroBlock (p : Pid) (b : Nat) : Prog State Unit := do
  let _ ← bread b
  putBlock b Bytes.zero
  logWrite p b

/-- The bitmap block for block `b`. -/
def bitmapBlock (sb : Superblock) (b : Nat) : Nat := sb.bmapstart.toNat + b / BPB

/-- The inner loop of `balloc_alloc`: the first clear bit of a bitmap block whose first bit is
the bit of block `b`. -/
def firstClear (sb : Superblock) (data : Block) (b : Nat) : Option Nat :=
  (List.range (min BPB (sb.size.toNat - b))).find? fun bi => !data.bit bi

/-- The outer loop of `balloc_alloc` over the given number of bitmap blocks. -/
def ballocFrom (p : Pid) (sb : Superblock) : Nat → Nat → Prog State Nat
  | 0, _ => pure 0
  | k + 1, b => do
    let data ← bread (bitmapBlock sb b)
    match firstClear sb data b with
    | some bi =>
      putBlock (bitmapBlock sb b) (data.setBit bi)
      logWrite p (bitmapBlock sb b)
      bzeroBlock p (b + bi)
      pure (b + bi)
    | none => ballocFrom p sb k (b + BPB)

def ballocAlloc (p : Pid) : Prog State Nat := do
  let sb ← gets State.sb
  ballocFrom p sb ((sb.size.toNat + BPB - 1) / BPB) 0

def bfreeRelease (p : Pid) (b : Nat) : Prog State Unit := do
  let sb ← gets State.sb
  if sb.size.toNat ≤ b then
    Prog.panic "bfree: block out of range"
  else
    let data ← bread (bitmapBlock sb b)
    if data.bit (b % BPB) then
      putBlock (bitmapBlock sb b) (data.clearBit (b % BPB))
      logWrite p (bitmapBlock sb b)
    else
      Prog.panic "bfree: freeing a free block"

end Xv6.Fs
