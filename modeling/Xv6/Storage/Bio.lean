import Xv6.Storage.State

/-!
# The buffer cache

The functions of `kernel/bio.c`. A spinlock section is one action; the sleep points are the
wait for a sleep lock and the wait for the device in `virtio_disk_rw`.
-/

namespace Xv6.Storage

open Data Coop Prog

/-! ## The LRU list -/

/-- Each entry in turn is linked right after the sentinel. -/
def binit : Bcache where
  buf := fun _ => {}
  links := (List.finRange NBUF).foldl Links.pushFront Links.empty

namespace Bcache

/-- The first loop of `bget`: follow `next` from the sentinel to an entry for the block. -/
def lookup (c : Bcache) (dev blockno : Nat) : Option (Fin NBUF) :=
  (Links.follow c.links.next NBUF none).find? fun i =>
    (c.buf i).dev == dev && (c.buf i).blockno == blockno

/-- The second loop of `bget`: follow `prev` from the sentinel to an entry to recycle. -/
def victim (c : Bcache) : Option (Fin NBUF) :=
  (Links.follow c.links.prev NBUF none).find? fun i =>
    (c.buf i).refcnt == 0 && (c.buf i).pinned == 0

/-- The section of `brelse` under the cache lock: drop the reference and, at zero, move the
entry to the tail of the list unless it is there already. -/
def unref (c : Bcache) (i : Fin NBUF) : Bcache :=
  let c := c.mod i Buf.decRef
  if (c.buf i).refcnt = 0 ∧ c.links.next (some i) ≠ none then
    { c with links := (c.links.unlink i).pushBack i }
  else c

end Bcache

/-! ## Sleep locks -/

def acquiresleep (p : Pid) (i : Fin NBUF) : Prog Sys Unit := do
  let locked ← gets fun s => (s.buf i).locked
  if locked then
    modify fun s => s.setChan p (some i)
    sleep (fun s => !(s.buf i).locked) (ret ())
    modify fun s => s.setChan p none
  modify fun s => s.mod i (Buf.lockBy p)

def releasesleep (i : Fin NBUF) : Prog Sys Unit :=
  modify fun s => s.mod i Buf.unlock

def holdingsleep (p : Pid) (i : Fin NBUF) (s : Sys) : Bool := decide (s.Holds p i)

/-! ## The device -/

/-- The number of logged blocks in a log header (`struct logheader`). -/
def headCount (b : Block) : Nat := (b.u32 0).toNat

namespace Sys

/-- What a reader of the block should see: the contents last passed to `log_write`, or those
of the device when the block was never logged. -/
def current (s : Sys) (b : Nat) : Block := (s.last b).getD (s.disk b)

/-- One block reaches the medium. The write of a nonempty header commits what the operations
since the last commit have logged. -/
def devWrite (s : Sys) (b : Nat) (d : Block) : Sys :=
  { s with
    disk := Function.update s.disk b d
    committed :=
      if b = s.log.start ∧ headCount d ≠ 0 then
        fun a => if a ∈ s.group then s.current a else s.committed a
      else s.committed }

/-- The kernel right after power-on. -/
def boot (disk committed : Nat → Block) : Sys where
  bcache := binit
  log := {}
  sb := default
  disk := disk
  chan := fun _ => none
  phase := .down
  ops := fun _ => .out
  dirty := fun _ => false
  last := fun _ => none
  group := []
  committed := committed

/-- A power failure: memory is lost. -/
def crash (s : Sys) : Sys := boot s.disk s.committed

end Sys

/-- `virtio_disk_rw(b->blockno, b->data, 1)`. -/
def virtioWrite (i : Fin NBUF) : Prog Sys Unit := do
  modify fun s => s.devWrite (s.buf i).blockno (s.buf i).data
  pause

/-- `virtio_disk_rw(blockno, b->data, 0)`. -/
def virtioRead (blockno : Nat) (i : Fin NBUF) : Prog Sys Unit := do
  pause
  modify fun s => s.mod i (Buf.fill (s.disk blockno))

/-! ## Buffers -/

def bget (p : Pid) (dev blockno : Nat) : Prog Sys (Fin NBUF) := do
  let i ← step fun s =>
    match s.bcache.lookup dev blockno with
    | some i => .ok (i, s.mod i Buf.incRef)
    | none =>
      match s.bcache.victim with
      | some i => .ok (i, s.mod i (Buf.assign dev blockno))
      | none => .error "bget: no buffers"
  acquiresleep p i
  pure i

def bread (p : Pid) (dev blockno : Nat) : Prog Sys (Fin NBUF) := do
  let i ← bget p dev blockno
  let valid ← gets fun s => (s.buf i).valid
  if valid then
    pure i
  else
    virtioRead blockno i
    modify fun s => s.mod i Buf.validate
    pure i

def bwrite (p : Pid) (i : Fin NBUF) : Prog Sys Unit := do
  check (holdingsleep p i) "bwrite"
  virtioWrite i

def brelse (p : Pid) (i : Fin NBUF) : Prog Sys Unit := do
  check (holdingsleep p i) "brelse"
  releasesleep i
  modify fun s => { s with bcache := s.bcache.unref i }

def bpin (i : Fin NBUF) : Prog Sys Unit :=
  modify fun s => s.mod i Buf.incPin

def bunpin (i : Fin NBUF) : Prog Sys Unit := do
  check (fun s => 0 < (s.buf i).pinned) "bunpin"
  modify fun s => s.mod i Buf.decPin

end Xv6.Storage
