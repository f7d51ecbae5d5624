import Xv6.Storage.Recover
import Mathlib.Algebra.Order.BigOperators.Group.Finset

/-!
# The disk, the cache and the log as one machine

Processes use the file-system device through operations: they read buffers, modify them inside
an operation, pass every modified buffer to `log_write` before they release it or leave the
operation, and log only home blocks. The first process runs `initlog` after power-on, and the
others start after it. The power may fail at any time.

`storeLogic` is the program logic of this machine. The ghost component counts the header blocks
that the current commit has installed.
-/

namespace Xv6.Storage

open Data Coop Prog

/-! ## The machine -/

/-- The process that mounts the file system. -/
abbrev initproc : Pid := 1

inductive Call
  | initlog
  | beginOp
  | endOp
  | bread (blockno : Nat)
  | modify (i : Fin NBUF) (d : Block)
  | logWrite (i : Fin NBUF)
  | brelse (i : Fin NBUF)

def storeCode (p : Pid) : Call → Prog Sys (Option (Fin NBUF))
  | .initlog => do initlog p ROOTDEV; return none
  | .beginOp => do beginOp p; return none
  | .endOp => do endOp p; return none
  | .bread blockno => do return some (← bread p ROOTDEV blockno)
  | .modify i d => do
    Prog.modify fun s =>
      { s.mod i (Buf.fill d) with dirty := Function.update s.dirty i true }
    return none
  | .logWrite i => do logWrite p i; return none
  | .brelse i => do brelse p i; return none

def Sys.Inside (s : Sys) (p : Pid) : Prop := ∃ l, s.ops p = .inside l

/-- When a process may issue a call. `ok` is a further condition on `log_write`. -/
def storeMay (ok : Pid → Fin NBUF → Sys → Prop) (p : Pid) : Call → Sys → Prop
  | .initlog, s => p = initproc ∧ s.phase = .down
  | .beginOp, s => s.phase = .up ∧ s.ops p = .out
  | .endOp, s => s.phase = .up ∧ s.Inside p ∧ ∀ i, s.Holds p i → s.dirty i = false
  | .bread _, s => s.phase = .up
  | .modify i _, s => s.phase = .up ∧ s.Inside p ∧ s.Holds p i
  | .logWrite i, s => s.phase = .up ∧ s.Inside p ∧ s.Holds p i ∧ s.sb.Home (s.buf i).blockno ∧
      ok p i s
  | .brelse i, s => s.phase = .up ∧ s.Holds p i ∧ s.dirty i = false

def storeMachine (ok : Pid → Fin NBUF → Sys → Prop) : Machine Sys Call (Option (Fin NBUF)) where
  code := storeCode
  may := storeMay ok
  fail := fun s s' => s' = s.crash

/-! ## The invariant -/

/-- The pin count of a buffer of block `b` when the blocks of `l` are pinned. -/
def pins (l : List Nat) (b : Nat) : Nat := if b ∈ l then 1 else 0

theorem pins_of_mem {l : List Nat} {b : Nat} (h : b ∈ l) : pins l b = 1 := if_pos h

theorem pins_of_notMem {l : List Nat} {b : Nat} (h : b ∉ l) : pins l b = 0 := if_neg h

structure LogInv (sb : Superblock) (s : Sys) (tail : Nat) : Prop where
  phase : s.phase = .up
  sb_eq : s.sb = sb
  start_eq : s.log.start = sb.logstart.toNat
  size_eq : s.log.size = sb.nlog.toNat
  dev_eq : s.log.dev = ROOTDEV
  wf : ∀ i, (s.buf i).Wf
  /-- The header in memory. -/
  nodup : s.log.lh.Nodup
  home : ∀ b ∈ s.log.lh, sb.Home b
  len_le : s.log.lh.length ≤ LOGSIZE
  len_lt : s.log.lh.length < sb.nlog.toNat
  group_eq : s.group = s.log.lh
  /-- Operations and the commit. -/
  outstanding : ∃ A : Finset Pid, (∀ p, p ∈ A ↔ s.Inside p) ∧ s.log.outstanding = A.card
  committing_of_op : ∀ p, s.ops p = .committing → s.log.committing = true
  op_of_committing : s.log.committing = true → ∃ p, s.ops p = .committing
  committing_unique : ∀ p q, s.ops p = .committing → s.ops q = .committing → p = q
  quiet : s.log.committing = true → s.log.outstanding = 0
  /-- Pins. -/
  tail_le : tail ≤ s.log.lh.length
  tail_zero : s.log.committing = false → tail = 0
  pinned : ∀ i, (s.buf i).pinned = pins (s.log.lh.drop tail) (s.buf i).blockno
  cached : ∀ b ∈ s.log.lh.drop tail, ∃ i, (s.buf i).dev = ROOTDEV ∧ (s.buf i).blockno = b ∧
    (s.buf i).valid = true
  /-- Contents. -/
  data : ∀ i, (s.buf i).valid = true → s.dirty i = false →
    (s.buf i).data = s.current (s.buf i).blockno
  dirty : ∀ i, s.dirty i = true → ∃ p, s.Holds p i ∧ s.Inside p
  last_home : ∀ b d, s.last b = some d → sb.Home b
  settled : ∀ b d, b ∉ s.log.lh.drop tail → s.last b = some d → s.disk b = d
  /-- The disk. -/
  disk : Recoverable sb s.disk s.committed
  head : s.log.committing = false → headCount (s.disk sb.logstart.toNat) = 0

def Op.logged : Op → List Nat
  | .inside l => l
  | _ => []

/-- What the admission test guarantees when every operation logs fewer than `MAXOPBLOCKS` blocks:
there is room for what the admitted operations may still log. -/
structure Reserved (l : Log) (ops : Pid → Op) : Prop where
  named : ∀ p, (ops p).logged ⊆ l.lh
  idle : l.outstanding = 0 → l.committing = false → l.lh = []
  room : ∀ A : Finset Pid, (∀ p ∈ A, ∃ k, ops p = .inside k) →
    l.lh.length + ∑ p ∈ A, (MAXOPBLOCKS - 1 - (ops p).logged.length) ≤ LOGSIZE - 2

/-- The invariant in each phase. With `tight`, operations log fewer than `MAXOPBLOCKS` blocks. -/
def StoreInv (sb : Superblock) (tight : Prop) (s : Sys) (tail : Nat) : Prop :=
  match s.phase with
  | .down => tail = 0 ∧ s = Sys.boot s.disk s.committed ∧ Recoverable sb s.disk s.committed
  | .recovering => tail = 0 ∧ Rebooting sb initproc s
  | .up => BioInv s.bcache s.chan none ∧ LogInv sb s tail ∧ (tight → Reserved s.log s.ops)

theorem StoreInv.disk {sb : Superblock} {tight : Prop} {s : Sys} {tail : Nat} (h : StoreInv sb tight s tail) :
    Recoverable sb s.disk s.committed := by
  unfold StoreInv at h
  cases hp : s.phase with
  | down =>
    simp only [hp] at h
    exact h.2.2
  | recovering =>
    simp only [hp] at h
    exact h.2.disk
  | up =>
    simp only [hp] at h
    exact h.2.1.disk

/-! ## Views -/

structure Held where
  dev : Nat
  blockno : Nat
  valid : Bool
  data : Block
  dirty : Bool

/-- What only the committing process changes. -/
structure Commit where
  log : Log
  disk : Nat → Block
  last : Nat → Option Block
  committed : Nat → Block
  tail : Nat

@[ext] structure StoreView where
  waits : Option (Fin NBUF × Nat × Nat)
  op : Op
  holds : Fin NBUF → Option Held
  commits : Option Commit
  boots : Option (Sys × Nat)

def Buf.held (b : Buf) (dirty : Bool) : Held where
  dev := b.dev
  blockno := b.blockno
  valid := b.valid
  data := b.data
  dirty := dirty

/-- The entry as process `p` sees it. -/
def Buf.heldBy (p : Pid) (dirty : Bool) (b : Buf) : Option Held :=
  if b.locked = true ∧ b.pid = p then some (b.held dirty) else none

theorem Buf.heldBy_of_holds {s : Sys} {p : Pid} {i : Fin NBUF} (h : s.Holds p i) (dirty : Bool) :
    (s.buf i).heldBy p dirty = some ((s.buf i).held dirty) :=
  if_pos h

theorem Buf.heldBy_of_not_holds {s : Sys} {p : Pid} {i : Fin NBUF} (h : ¬ s.Holds p i)
    (dirty : Bool) : (s.buf i).heldBy p dirty = none :=
  if_neg h

def Sys.held (s : Sys) (i : Fin NBUF) : Held := (s.buf i).held (s.dirty i)

def Sys.commit (s : Sys) (tail : Nat) : Commit := ⟨s.log, s.disk, s.last, s.committed, tail⟩

def storeView (p : Pid) (s : Sys) (tail : Nat) : StoreView where
  waits := (s.chan p).map fun i => (i, (s.buf i).dev, (s.buf i).blockno)
  op := s.ops p
  holds := fun i => (s.buf i).heldBy p (s.dirty i)
  commits := if s.ops p = .committing then some (s.commit tail) else none
  boots := if p = initproc ∧ s.phase ≠ .up then some (s, tail) else none

/-- After recovery, device writes stay inside the log region and the home blocks. -/
def InBounds (sb : Superblock) (s s' : Sys) : Prop :=
  s.phase = .up → s'.phase = .up ∧ ∀ b, s'.disk b ≠ s.disk b → sb.InLog b ∨ sb.Home b

/-- The only panics are the exhaustion of the cache and, unless `tight`, of the log. -/
def storeLogic (sb : Superblock) (tight : Prop) : Logic Sys Nat StoreView where
  inv := fun w => StoreInv sb tight w.1 w.2
  view := fun p w => storeView p w.1 w.2
  idle := fun v => v.waits = none ∧ (v.op = .out ∨ ∃ l, v.op = .inside l) ∧
    ∀ i h, v.holds i = some h → h.valid = true
  bad := fun m _ => m ≠ "bget: no buffers" ∧ (m = "log: too big a transaction" → tight)
  dead := fun s => ∃ tail, StoreInv sb tight s tail
  guar := InBounds sb

end Xv6.Storage
