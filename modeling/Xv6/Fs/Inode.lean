import Xv6.Fs.State

/-!
# Inodes

The inode cache, the block map of an inode and its contents, as `kernel/fs.c` has them.

A transfer between an inode and a buffer is made in pieces that lie within one block. A user
buffer may fault in the middle of a piece; `Source` says how much of each piece is copied before
the fault.
-/

namespace Xv6.Fs

open Data Coop Prog Storage

/-! ## The inode cache -/

/-- The search of `iget`: a cached entry for `inum`, or else the first free one. -/
def igetStep (inum : Nat) (s : State) : Except String (Fin NINODE × State) :=
  match (List.finRange NINODE).find? fun i =>
      decide (0 < (s.icache i).ref ∧ (s.icache i).inum = inum) with
  | some i => .ok (i, s.modInode i fun ip => { ip with ref := ip.ref + 1 })
  | none =>
    match (List.finRange NINODE).find? fun i => decide ((s.icache i).ref = 0) with
    | some i => .ok (i, s.modInode i fun ip => { ip with inum := inum, ref := 1, valid := false })
    | none => .error "iget: no inodes"

def iget (inum : Nat) : Prog State (Fin NINODE) := step (igetStep inum)

def idup (i : Fin NINODE) : Prog State (Fin NINODE) := do
  modify fun s => s.modInode i fun ip => { ip with ref := ip.ref + 1 }
  pure i

/-- `acquiresleep(&ip->lock)`. -/
def acquireInode (p : Pid) (i : Fin NINODE) : Prog State Unit := do
  waitFor p (.inode i)
  modify fun s => (s.noteWake p).modInode i fun ip => { ip with lock := some p }

/-- `releasesleep(&ip->lock)`. -/
def releaseInode (i : Fin NINODE) : Prog State Unit :=
  modify fun s => s.modInode i fun ip => { ip with lock := none }

def ilock (p : Pid) (i : Fin NINODE) : Prog State Unit := do
  check (fun s => decide (1 ≤ (s.icache i).ref)) "ilock"
  acquireInode p i
  let ip ← gets fun s => s.icache i
  if ip.valid then pure ()
  else
    let sb ← gets State.sb
    let data ← bread (inodeBlock sb ip.inum)
    modify fun s => s.modInode i fun ip =>
      { ip with din := Dinode.read data (ip.inum % IPB), valid := true }
    check (fun s => (s.din i).type != 0) "ilock: no type"

def iunlock (p : Pid) (i : Fin NINODE) : Prog State Unit := do
  check (fun s => decide ((s.icache i).lock = some p ∧ 1 ≤ (s.icache i).ref)) "iunlock"
  releaseInode i

def iupdate (p : Pid) (i : Fin NINODE) : Prog State Unit := do
  let sb ← gets State.sb
  let inum ← gets fun s => (s.icache i).inum
  let data ← bread (inodeBlock sb inum)
  let d ← gets fun s => s.din i
  putBlock (inodeBlock sb inum) (d.write data (inum % IPB))
  logWrite p (inodeBlock sb inum)

/-- The loop of `ialloc_alloc` over `k` inodes from `inum` on. -/
def iallocFrom (p : Pid) (sb : Superblock) (type : UInt16) : Nat → Nat → Prog State (Option (Fin NINODE))
  | 0, _ => pure none
  | k + 1, inum => do
    let data ← bread (inodeBlock sb inum)
    if (Dinode.read data (inum % IPB)).type = 0 then
      putBlock (inodeBlock sb inum) (Dinode.write { type := type } data (inum % IPB))
      logWrite p (inodeBlock sb inum)
      let i ← iget inum
      pure (some i)
    else iallocFrom p sb type k (inum + 1)

def iallocAlloc (p : Pid) (type : UInt16) : Prog State (Option (Fin NINODE)) := do
  let sb ← gets State.sb
  iallocFrom p sb type ((s32 sb.ninodes.toNat).toNat - 1) 1

/-! ## The block map -/

/-- `ip->addrs[k]`, which is allocated when it is zero. -/
def bmapDirect (p : Pid) (i : Fin NINODE) (k : Nat) : Prog State Nat := do
  let addr ← gets fun s => (s.din i).addr k
  if addr = 0 then
    modify fun s => s.noteChange p
    let addr ← ballocAlloc p
    if addr = 0 then pure 0
    else
      modify fun s => s.modDin i fun d => d.setAddr k addr
      pure addr
  else pure addr

def bmap (p : Pid) (i : Fin NINODE) (bn : Nat) : Prog State Nat := do
  if bn < NDIRECT then bmapDirect p i bn
  else if bn - NDIRECT < NINDIRECT then
    let ind ← bmapDirect p i NDIRECT
    if ind = 0 then pure 0
    else
      let data ← bread ind
      let addr := (data.u32 (4 * (bn - NDIRECT))).toNat
      if addr = 0 then
        modify fun s => s.noteChange p
        let addr ← ballocAlloc p
        if addr = 0 then pure 0
        else
          putBlock ind (data.putU32 (4 * (bn - NDIRECT)) (UInt32.ofNat addr))
          logWrite p ind
          pure addr
      else pure addr
  else pure 0

/-- Free `ip->addrs[k]`. -/
def itruncDirect (p : Pid) (i : Fin NINODE) (k : Nat) : Prog State Unit := do
  let addr ← gets fun s => (s.din i).addr k
  if addr = 0 then pure ()
  else
    bfreeRelease p addr
    modify fun s => s.modDin i fun d => d.setAddr k 0

/-- Free the block that the `j`-th entry of an indirect block names. -/
def itruncEntry (p : Pid) (data : Block) (j : Nat) : Prog State Unit := do
  let addr := (data.u32 (4 * j)).toNat
  if addr = 0 then pure () else bfreeRelease p addr

def itrunc (p : Pid) (i : Fin NINODE) : Prog State Unit := do
  loop (itruncDirect p i) 0 NDIRECT
  let ind ← gets fun s => (s.din i).addr NDIRECT
  if ind = 0 then pure ()
  else
    let data ← bread ind
    loop (itruncEntry p data) 0 NINDIRECT
    bfreeRelease p ind
    modify fun s => s.modDin i fun d => d.setAddr NDIRECT 0
  modify fun s => s.modDin i fun d => { d with size := 0 }
  iupdate p i

/-- Drop a reference, and reclaim the inode when it was the last one to an unlinked inode. -/
def iput (p : Pid) (i : Fin NINODE) : Prog State Unit := do
  let ip ← gets fun s => s.icache i
  if ip.ref ≠ 1 ∨ ip.valid = false ∨ ip.din.nlink ≠ 0 then
    check (fun s => decide (1 ≤ (s.icache i).ref)) "iput"
    modify fun s => s.modInode i fun ip => { ip with ref := ip.ref - 1 }
  else
    modify fun s => s.noteChange p
    acquireInode p i
    itrunc p i
    modify fun s => s.modDin i fun d => { d with type := 0 }
    iupdate p i
    releaseInode i
    modify fun s => s.modInode i fun ip => { ip with valid := false }
    check (fun s => decide ((s.icache i).ref = 1)) "iput: concurrent reference"
    modify fun s => s.modInode i fun ip => { ip with ref := 0 }

def iunlockput (p : Pid) (i : Fin NINODE) : Prog State Unit := do
  iunlock p i
  iput p i

/-! ## Contents -/

/-- A buffer to write from. `copied t m` is how many of the `m` bytes at offset `t` are copied
before the copy faults, which is `m` when it does not. -/
structure Source where
  byte : Nat → UInt8
  copied : Nat → Nat → Nat
  copied_le : ∀ t m, copied t m ≤ m

namespace Source

/-- The `m` bytes at offset `t`. -/
def bytes (src : Source) (t m : Nat) : List UInt8 := (List.range m).map fun j => src.byte (t + j)

def Safe (src : Source) : Prop := ∀ t m, src.copied t m = m

/-- A buffer of the kernel. -/
def ofList (l : List UInt8) : Source := ⟨fun k => l.getD k 0, fun _ m => m, fun _ m => Nat.le_refl m⟩

/-- The buffer from offset `k` on. -/
def shift (src : Source) (k : Nat) : Source :=
  ⟨fun t => src.byte (k + t), fun t m => src.copied (k + t) m, fun t m => src.copied_le (k + t) m⟩

end Source

/-- The length of the next piece of a transfer of `n` bytes: up to the end of the block. -/
def piece (off n : Nat) : Nat := min n (BSIZE - off % BSIZE)

/-- The loop of `readi` over the remaining `n` bytes. `ok t m` says whether the copy of `m` bytes to
offset `t` of the destination succeeds. Each round moves at least one byte, so `n` rounds are
enough. -/
def readLoop (p : Pid) (i : Fin NINODE) (ok : Nat → Nat → Bool) : Nat → Nat → Nat → Nat → Prog State (List UInt8)
  | 0, _, _, _ => pure []
  | k + 1, tot, off, n => do
    if 0 < n then
      let addr ← bmap p i (off / BSIZE)
      if addr = 0 then pure []
      else
        let data ← bread addr
        let m := piece off n
        if ok tot m then
          let rest ← readLoop p i ok k (tot + m) (off + m) (n - m)
          pure (data.slice (off % BSIZE) m ++ rest)
        else pure []
    else pure []

/-- The bytes that `readi` copies; their number is its result. -/
def readi (p : Pid) (i : Fin NINODE) (ok : Nat → Nat → Bool) (off n : UInt32) : Prog State (List UInt8) := do
  let size ← gets fun s => (s.din i).size
  if size < off ∨ off + n < off then pure []
  else
    let n := if size < off + n then size - off else n
    readLoop p i ok n.toNat 0 off.toNat n.toNat

/-- The loop of `writei` over the remaining `n` bytes, after `tot` bytes. -/
def writeLoop (p : Pid) (i : Fin NINODE) (src : Source) : Nat → Nat → Nat → Nat → Prog State Nat
  | 0, tot, _, _ => pure tot
  | k + 1, tot, off, n => do
    if 0 < n then
      let addr ← bmap p i (off / BSIZE)
      if addr = 0 then pure tot
      else
        let data ← bread addr
        let m := piece off n
        putBlock addr (data.blit (off % BSIZE) (src.bytes tot (src.copied tot m)))
        if src.copied tot m = m then
          logWrite p addr
          writeLoop p i src k (tot + m) (off + m) (n - m)
        else pure tot
    else pure tot

/-- `none` is the result `-1`. -/
def writei (p : Pid) (i : Fin NINODE) (src : Source) (off n : UInt32) : Prog State (Option Nat) := do
  let size ← gets fun s => (s.din i).size
  if size < off ∨ off + n < off then pure none
  else if MAXFILE * BSIZE < (off + n).toNat then pure none
  else
    let tot ← writeLoop p i src n.toNat 0 off.toNat n.toNat
    modify fun s => s.modDin i fun d =>
      { d with size := if d.size < off + UInt32.ofNat tot then off + UInt32.ofNat tot else d.size }
    iupdate p i
    pure (some tot)

end Xv6.Fs
