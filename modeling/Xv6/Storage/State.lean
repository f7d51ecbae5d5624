import Xv6.Param
import Xv6.Data.Ring
import Xv6.Coop.Pool

/-!
# The state of the buffer cache, the log and the disk

`Buf`, `Bcache` and `Log` are the structures of `kernel/buf.h`, `kernel/bio.c` and
`kernel/log.c`. The disk maps block numbers to contents; a block write is one atomic change of
it.

The fields of `Sys` after `chan` are auxiliary: the code never reads them. They record whether
the log has been initialised, which process is inside an operation, which held buffers were
modified and not logged since, the contents last passed to `log_write`, the distinct blocks
logged since the last commit, and the home blocks after the committed transactions.
-/

namespace Xv6.Storage

open Data Coop

/-- A buffer-cache entry. `assigned` is auxiliary: `bget` has given the entry an identity. -/
structure Buf where
  valid : Bool := false
  dev : Nat := 0
  blockno : Nat := 0
  locked : Bool := false
  pid : Pid := 0
  refcnt : Nat := 0
  pinned : Nat := 0
  data : Block := Bytes.zero
  assigned : Bool := false

namespace Buf

def lockBy (p : Pid) (b : Buf) : Buf := { b with locked := true, pid := p }

def unlock (b : Buf) : Buf := { b with locked := false, pid := 0 }

def assign (dev blockno : Nat) (b : Buf) : Buf :=
  { b with dev := dev, blockno := blockno, valid := false, refcnt := 1, assigned := true }

def incRef (b : Buf) : Buf := { b with refcnt := b.refcnt + 1 }

def decRef (b : Buf) : Buf := { b with refcnt := b.refcnt - 1 }

def incPin (b : Buf) : Buf := { b with pinned := b.pinned + 1 }

def decPin (b : Buf) : Buf := { b with pinned := b.pinned - 1 }

def fill (d : Block) (b : Buf) : Buf := { b with data := d }

def validate (b : Buf) : Buf := { b with valid := true }

end Buf

/-- The cache entries and the LRU list through the sentinel `bcache.head`. -/
structure Bcache where
  buf : Fin NBUF → Buf
  links : Links (Fin NBUF)

/-- `struct log`; `lh` lists `lh.block[0..n)`. -/
structure Log where
  start : Nat := 0
  size : Nat := 0
  outstanding : Nat := 0
  committing : Bool := false
  dev : Nat := 0
  lh : List Nat := []

/-- Where a process is in the `begin_op` / `end_op` protocol. Inside an operation, the distinct
blocks that it has logged. -/
inductive Op
  | out
  | entering
  | inside (logged : List Nat)
  | committing
  deriving DecidableEq

/-- Before, during and after `initlog`. -/
inductive Phase
  | down
  | recovering
  | up
  deriving DecidableEq

structure Sys where
  bcache : Bcache
  log : Log
  sb : Superblock
  disk : Nat → Block
  chan : Pid → Option (Fin NBUF)
  phase : Phase
  ops : Pid → Op
  dirty : Fin NBUF → Bool
  last : Nat → Option Block
  group : List Nat
  committed : Nat → Block

namespace Bcache

def mod (c : Bcache) (i : Fin NBUF) (f : Buf → Buf) : Bcache :=
  { c with buf := Function.update c.buf i (f (c.buf i)) }

@[simp] theorem mod_links (c : Bcache) (i : Fin NBUF) (f : Buf → Buf) :
    (c.mod i f).links = c.links := rfl

@[simp] theorem mod_buf_self (c : Bcache) (i : Fin NBUF) (f : Buf → Buf) : (c.mod i f).buf i = f (c.buf i) := by
  simp [mod]

theorem mod_buf_of_ne (c : Bcache) {i j : Fin NBUF} (f : Buf → Buf) (h : j ≠ i) : (c.mod i f).buf j = c.buf j := by
  simp [mod, h]

/-- What holds of every buffer still does if it holds of the new one. -/
theorem forall_mod {c : Bcache} {i : Fin NBUF} {f : Buf → Buf} (P : Fin NBUF → Buf → Prop) (h : ∀ j, P j (c.buf j))
    (hi : P i (f (c.buf i))) : ∀ j, P j ((c.mod i f).buf j) :=
  (Function.forall_update_iff _ P).mpr ⟨hi, fun j _ => h j⟩

/-- What an update does not change is as before in every buffer. -/
theorem mod_congr {α : Type} {c : Bcache} {i : Fin NBUF} {f : Buf → Buf} (g : Buf → α)
    (hg : g (f (c.buf i)) = g (c.buf i)) : ∀ j, g ((c.mod i f).buf j) = g (c.buf j) :=
  forall_mod (fun j b => g b = g (c.buf j)) (fun _ => rfl) hg

end Bcache

namespace Sys

def buf (s : Sys) (i : Fin NBUF) : Buf := s.bcache.buf i

def mod (s : Sys) (i : Fin NBUF) (f : Buf → Buf) : Sys := { s with bcache := s.bcache.mod i f }

def setChan (s : Sys) (p : Pid) (c : Option (Fin NBUF)) : Sys :=
  { s with chan := Function.update s.chan p c }

@[simp] theorem mod_buf_self (s : Sys) (i : Fin NBUF) (f : Buf → Buf) : (s.mod i f).buf i = f (s.buf i) :=
  s.bcache.mod_buf_self i f

theorem mod_buf_of_ne (s : Sys) {i j : Fin NBUF} (f : Buf → Buf) (h : j ≠ i) : (s.mod i f).buf j = s.buf j :=
  s.bcache.mod_buf_of_ne f h

@[simp] theorem mod_bcache (s : Sys) (i : Fin NBUF) (f : Buf → Buf) :
    (s.mod i f).bcache = s.bcache.mod i f := rfl

@[simp] theorem mod_chan (s : Sys) (i : Fin NBUF) (f : Buf → Buf) : (s.mod i f).chan = s.chan := rfl

@[simp] theorem setChan_bcache (s : Sys) (p : Pid) (c : Option (Fin NBUF)) :
    (s.setChan p c).bcache = s.bcache := rfl

@[simp] theorem setChan_buf (s : Sys) (p : Pid) (c : Option (Fin NBUF)) (i : Fin NBUF) :
    (s.setChan p c).buf i = s.buf i := rfl

@[simp] theorem setChan_chan (s : Sys) (p : Pid) (c : Option (Fin NBUF)) :
    (s.setChan p c).chan = Function.update s.chan p c := rfl

/-- Process `p` is between `acquiresleep` and `releasesleep` of entry `i`. -/
def Holds (s : Sys) (p : Pid) (i : Fin NBUF) : Prop :=
  (s.buf i).locked = true ∧ (s.buf i).pid = p

instance (s : Sys) (p : Pid) (i : Fin NBUF) : Decidable (s.Holds p i) :=
  inferInstanceAs (Decidable (_ ∧ _))

end Sys

end Xv6.Storage
