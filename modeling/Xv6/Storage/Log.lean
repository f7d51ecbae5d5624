import Xv6.Storage.Bio

/-!
# The redo log

The functions of `kernel/log.c`. Assignments to auxiliary fields are part of the action of the
source that they describe.
-/

namespace Xv6.Storage

open Data Coop Prog Function

/-! ## The header block -/

/-- `hb->block[k]`. -/
def headBlock (b : Block) (k : Nat) : Nat := (b.u32 (4 + 4 * k)).toNat

/-- `hb->block[0..n)`. -/
def headBlocks (b : Block) : List Nat := (List.range (headCount b)).map (headBlock b)

/-- The stores of `write_head` into the header buffer. -/
def encodeHead (b : Block) (lh : List Nat) : Block :=
  (b.putU32 0 (UInt32.ofNat lh.length)).putWords 4 (fun k => UInt32.ofNat (lh.getD k 0)) lh.length

/-! ## Reading and writing the log -/

/-- `bread(log.dev, f(log))`. -/
def breadLog (p : Pid) (f : Log → Nat) : Prog Sys (Fin NBUF) := do
  let l ← gets Sys.log
  bread p l.dev (f l)

def readsb (p : Pid) : Prog Sys Unit := do
  let i ← breadLog p fun _ => 1
  modify fun s => { s with sb := Superblock.decode (s.buf i).data }
  brelse p i

def writeHead (p : Pid) : Prog Sys Unit := do
  let i ← breadLog p Log.start
  modify fun s => s.mod i fun b => b.fill (encodeHead b.data s.log.lh)
  bwrite p i
  brelse p i

/-- The validation of one header entry. -/
def homeBlock (l : Log) (sb : Superblock) (b : Nat) : Bool :=
  decide ((l.size + l.start) % 2 ^ 32 ≤ b ∧ b < sb.size.toNat)

def readHead (p : Pid) : Prog Sys Unit := do
  let i ← breadLog p Log.start
  let hb ← gets fun s => (s.buf i).data
  let size ← gets fun s => s.log.size
  if s32 (headCount hb) < 0 ∨ s32 size ≤ s32 (headCount hb) then
    brelse p i
    Prog.panic "log: invalid header count"
  else
    check (fun s => (headBlocks hb).all (homeBlock s.log s.sb)) "log: impossible block number"
    modify fun s => { s with log := { s.log with lh := headBlocks hb } }
    brelse p i

/-- One iteration of `write_log`. -/
def writeLogBody (p : Pid) (tail : Nat) : Prog Sys Unit := do
  let dst ← breadLog p fun l => l.start + tail + 1
  let src ← breadLog p fun l => l.lh.getD tail 0
  modify fun s => s.mod dst (Buf.fill (s.buf src).data)
  bwrite p dst
  brelse p dst
  brelse p src

def writeLog (p : Pid) : Prog Sys Unit := do
  let n ← gets fun s => s.log.lh.length
  loop (writeLogBody p) 0 n

/-- One iteration of `install_trans`. -/
def installBody (p : Pid) (recovering : Bool) (tail : Nat) : Prog Sys Unit := do
  let lbuf ← breadLog p fun l => l.start + tail + 1
  let dbuf ← breadLog p fun l => l.lh.getD tail 0
  modify fun s => s.mod dbuf (Buf.fill (s.buf lbuf).data)
  bwrite p dbuf
  if recovering then pure () else bunpin dbuf
  brelse p lbuf
  brelse p dbuf

def installTrans (p : Pid) (recovering : Bool) : Prog Sys Unit := do
  let n ← gets fun s => s.log.lh.length
  loop (installBody p recovering) 0 n

/-- `log.lh.n = 0`. -/
def clearHead : Prog Sys Unit :=
  modify fun s => { s with log := { s.log with lh := [] }, group := [] }

def recoverFromLog (p : Pid) : Prog Sys Unit := do
  readHead p
  installTrans p true
  clearHead
  writeHead p

def commit (p : Pid) : Prog Sys Unit := do
  let n ← gets fun s => s.log.lh.length
  if 0 < n then
    writeLog p
    writeHead p
    installTrans p false
    clearHead
    writeHead p

/-- The header always fits a block, so the first check of the source is left out. -/
def initlog (p : Pid) (dev : Nat) : Prog Sys Unit := do
  modify fun s => { s with log := { s.log with dev := dev }, phase := .recovering }
  readsb p
  check (fun s => s.sb.magic == FSMAGIC) "log: bad magic in superblock"
  check (fun s => decide (0 < s.sb.nlog ∧ 1 < s.sb.logstart)) "log: invalid log region"
  check (fun s => decide (s.sb.logstart + s.sb.nlog ≤ s.sb.size)) "log: log region out of range"
  modify fun s =>
    { s with log :=
      { s.log with
        start := s.sb.logstart.toNat
        size := s.sb.nlog.toNat
        lh := []
        outstanding := 0
        committing := false } }
  recoverFromLog p
  modify fun s => { s with phase := .up }

/-! ## Operations -/

def Sys.setOp (s : Sys) (p : Pid) (o : Op) : Sys := { s with ops := update s.ops p o }

/-- The admission test of `begin_op`. -/
def admits (l : Log) : Bool :=
  decide (l.committing = false ∧ l.lh.length + (l.outstanding + 1) * MAXOPBLOCKS ≤ LOGSIZE)

def beginOp (p : Pid) : Prog Sys Unit := do
  modify fun s => s.setOp p .entering
  await fun s => admits s.log
  modify fun s =>
    { s with log := { s.log with outstanding := s.log.outstanding + 1 } }.setOp p (.inside [])

/-- Add an element that is not in the list yet. -/
def addNew (l : List Nat) (b : Nat) : List Nat := if b ∈ l then l else l ++ [b]

/-- The blocks that the current operation has logged, with one more. -/
def Op.log (o : Op) (b : Nat) : Op :=
  match o with
  | .inside l => .inside (addNew l b)
  | o => o

/-- The loop of `log_write` and what follows it: absorb a logged block, or append and pin it. -/
def Sys.record (s : Sys) (i : Fin NBUF) : Sys :=
  if (s.buf i).blockno ∈ s.log.lh then s
  else
    { s with log := { s.log with lh := s.log.lh ++ [(s.buf i).blockno] } }.mod i Buf.incPin

/-- The auxiliary record of a `log_write`. -/
def Sys.note (s : Sys) (p : Pid) (i : Fin NBUF) : Sys :=
  { s with
    last := update s.last (s.buf i).blockno (some (s.buf i).data)
    dirty := update s.dirty i false
    group := addNew s.group (s.buf i).blockno
    ops := update s.ops p ((s.ops p).log (s.buf i).blockno) }

/-- `log.lh.n < LOGSIZE` and `log.lh.n < log.size - 1`. -/
def fits (l : Log) : Bool :=
  decide (l.lh.length < LOGSIZE ∧ (l.lh.length : Int) < s32 l.size - 1)

def logWrite (p : Pid) (i : Fin NBUF) : Prog Sys Unit := do
  check (fun s => fits s.log) "log: too big a transaction"
  check (fun s => decide (1 ≤ s.log.outstanding)) "log_write outside of transaction"
  modify fun s => (s.record i).note p i

/-- The section of `end_op` under the log lock. The result says whether the caller commits. -/
def leave (p : Pid) (s : Sys) : Except String (Bool × Sys) :=
  let s := { s with log := { s.log with outstanding := s.log.outstanding - 1 } }
  if s.log.committing then .error "log committing during end_op"
  else if s.log.outstanding = 0 then
    .ok (true, { s with log := { s.log with committing := true } }.setOp p .committing)
  else .ok (false, s.setOp p .out)

def endOp (p : Pid) : Prog Sys Unit := do
  let doCommit ← step (leave p)
  if doCommit then
    commit p
    modify fun s => { s with log := { s.log with committing := false } }.setOp p .out

end Xv6.Storage
