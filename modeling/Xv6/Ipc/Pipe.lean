import Xv6.Data.Fifo
import Xv6.Process.Sched

/-!
# Pipes

`kernel/pipe.c` with the parts of `kernel/file.c` and `kernel/proc.c` that a pipe depends on: the two
files of the pipe with their reference counts, and for each process where it stands in `piperead` or
`pipewrite` and whether it sleeps. The kernel gives up the processor only in `sleep`, so what a process
does between two sleeps is one step; the pipe lock is free between the steps.

User memory is left open: what `copyin` reads and where `copyout` succeeds is given anew with every
step. `accepted` and `delivered` are the bytes that went into and came out of the pipe so far.
-/

namespace Xv6.Ipc

open Process Function

abbrev PIPESIZE : Nat := 512

/-- The fields of `struct pipe` that the lock protects. -/
structure Pipe where
  data : Nat → UInt8
  nread : UInt32
  nwrite : UInt32
  readopen : Bool
  writeopen : Bool

/-- The addresses that a process sleeps on. -/
inductive Chan
  | nread | nwrite
  deriving DecidableEq

/-- The two files of a pipe. -/
inductive Side
  | read | write
  deriving DecidableEq

/-- Where a process stands: outside of the pipe, or at the sleep of `piperead` or `pipewrite`. -/
inductive Place
  | user
  | piperead (addr : UInt64) (n : Int)
  | pipewrite (addr : UInt64) (n : Int) (i : Nat)
  deriving DecidableEq

/-- A process; `fds` counts its descriptors of each file. -/
structure Proc where
  sched : Sched Chan
  place : Place
  fds : Side → Nat

structure State (P : Type) where
  pi : Pipe
  ref : Side → Nat
  freed : Bool
  proc : P → Proc
  accepted : List UInt8
  delivered : List UInt8

variable {P : Type} [DecidableEq P]

namespace State

/-- Overwrite the entry of the process `p`. -/
def setProc (s : State P) (p : P) (x : Proc) : State P :=
  { s with proc := update s.proc p x }

/-- Overwrite the numbers of descriptors of the process `p`. -/
def setFds (s : State P) (p : P) (fds : Side → Nat) : State P := s.setProc p { s.proc p with fds }

/-- `wakeup` as called by the process `me`. -/
def wakeup (me : P) (c : Chan) (s : State P) : State P :=
  { s with proc := fun q =>
      if q = me then s.proc q else { s.proc q with sched := (s.proc q).sched.wakeup c } }

/-- `sleep` as called by the process `me` at the given place. -/
def sleep (me : P) (c : Chan) (at' : Place) (s : State P) : State P :=
  s.setProc me { s.proc me with sched := .sleep c, place := at' }

/-- `pi->data[pi->nwrite++ % PIPESIZE] = ch`. -/
def push (ch : UInt8) (s : State P) : State P :=
  { s with
    pi := { s.pi with
      data := update s.pi.data (s.pi.nwrite.toNat % PIPESIZE) ch
      nwrite := s.pi.nwrite + 1 }
    accepted := s.accepted ++ [ch] }

/-- The byte at the read position has been copied out: `pi->nread++`. -/
def pop (s : State P) : State P :=
  { s with
    pi := { s.pi with nread := s.pi.nread + 1 }
    delivered := s.delivered ++ [s.pi.data (s.pi.nread.toNat % PIPESIZE)] }

end State

/-! ## Reading and writing -/

section Calls

variable (me : P) (copyin : UInt64 → Option UInt8) (copyout : UInt64 → Bool) (addr : UInt64) (n : Int)

/-- The loop of `pipewrite` with `i` bytes done and `k` bytes left. There is no result when the process
sleeps. -/
def pipewriteLoop : Nat → Nat → State P → State P × Option Int
  | 0, i, s => (s.wakeup me .nread, some i)
  | k + 1, i, s =>
    if s.pi.readopen = false then (s, some (-1))
    else if s.pi.nwrite = s.pi.nread + UInt32.ofNat PIPESIZE then
      ((s.wakeup me .nread).sleep me .nwrite (.pipewrite addr n i), none)
    else
      match copyin (addr + UInt64.ofNat i) with
      | none => if i = 0 then (s, some (-1)) else (s.wakeup me .nread, some i)
      | some ch => pipewriteLoop k (i + 1) (s.push ch)

/-- `pipewrite` from the head of its loop. -/
def pipewrite (i : Nat) (s : State P) : State P × Option Int :=
  pipewriteLoop me copyin addr n (n - i).toNat i s

/-- The second loop of `piperead`. -/
def pipereadLoop : Nat → Nat → State P → State P × Int
  | 0, i, s => (s.wakeup me .nwrite, i)
  | k + 1, i, s =>
    if s.pi.nread = s.pi.nwrite then (s.wakeup me .nwrite, i)
    else if copyout (addr + UInt64.ofNat i) then pipereadLoop k (i + 1) s.pop
    else if i = 0 then (s, -1)
    else (s.wakeup me .nwrite, i)

/-- `piperead` from the head of its first loop. -/
def piperead (s : State P) : State P × Option Int :=
  if s.pi.nread = s.pi.nwrite ∧ s.pi.writeopen = true then
    (s.sleep me .nread (.piperead addr n), none)
  else
    let out := pipereadLoop me copyout addr n.toNat 0 s
    (out.1, some out.2)

/-- A call that has returned leaves the process outside of the pipe. -/
def settle (out : State P × Option Int) : State P :=
  match out.2 with
  | none => out.1
  | some _ => out.1.setProc me { out.1.proc me with place := .user }

end Calls

/-! ## Closing -/

/-- `pi->writeopen = 0` or `pi->readopen = 0`. -/
def Pipe.shut (pi : Pipe) : Side → Pipe
  | .write => { pi with writeopen := false }
  | .read => { pi with readopen := false }

/-- Both directions of `pipeclose` wake the sleepers on both positions. -/
def pipeclose (me : P) (side : Side) (s : State P) : State P :=
  let s := State.wakeup me .nwrite (State.wakeup me .nread { s with pi := s.pi.shut side })
  if s.pi.readopen = false ∧ s.pi.writeopen = false then { s with freed := true } else s

/-- `fileclose` on a file of the pipe. -/
def fileclose (me : P) (side : Side) (s : State P) : State P :=
  let s := { s with ref := update s.ref side (s.ref side - 1) }
  if 0 < s.ref side then s else pipeclose me side s

/-! ## Steps -/

/-- One step: a system call up to its end or its first sleep, or what follows a sleep. -/
inductive Action (P : Type)
  | write (p : P) (addr : UInt64) (n : Int) (copyin : UInt64 → Option UInt8)
  | read (p : P) (addr : UInt64) (n : Int) (copyout : UInt64 → Bool)
  | resume (p : P) (copyin : UInt64 → Option UInt8) (copyout : UInt64 → Bool)
  | kill (p : P)
  | dup (p : P) (side : Side)
  | fork (p child : P)
  | close (p : P) (side : Side)

/-- The process is outside of the pipe and may make a system call. -/
def Proc.Ready (x : Proc) : Prop := x.place = .user ∧ x.sched.state = .runnable

instance (x : Proc) : Decidable x.Ready := inferInstanceAs (Decidable (_ ∧ _))

/-- The process goes on after `sched()` has returned in `sleep`. -/
def State.awake (s : State P) (p : P) : State P :=
  s.setProc p { s.proc p with sched := { (s.proc p).sched with chan := none } }

def step (s : State P) : Action P → Option (State P)
  | .write p addr n copyin =>
    if (s.proc p).Ready ∧ 0 < (s.proc p).fds .write then
      some (settle p (pipewrite p copyin addr n 0 s))
    else none
  | .read p addr n copyout =>
    if (s.proc p).Ready ∧ 0 < (s.proc p).fds .read then
      some (settle p (piperead p copyout addr n s))
    else none
  | .resume p copyin copyout =>
    if (s.proc p).sched.state = .runnable then
      match (s.proc p).place with
      | .user => none
      | .piperead addr n => some (settle p (piperead p copyout addr n (s.awake p)))
      | .pipewrite addr n i => some (settle p (pipewrite p copyin addr n i (s.awake p)))
    else none
  | .kill p => some (s.setProc p { s.proc p with sched := (s.proc p).sched.kill })
  | .dup p side =>
    if (s.proc p).Ready ∧ 0 < (s.proc p).fds side then
      some (State.setFds { s with ref := update s.ref side (s.ref side + 1) } p
        (update (s.proc p).fds side ((s.proc p).fds side + 1)))
    else none
  | .fork p child =>
    if (s.proc p).Ready ∧ (s.proc child).Ready ∧ (s.proc child).fds .read = 0 ∧
        (s.proc child).fds .write = 0 then
      some (State.setFds { s with ref := fun side => s.ref side + (s.proc p).fds side } child
        (s.proc p).fds)
    else none
  | .close p side =>
    if (s.proc p).Ready ∧ 0 < (s.proc p).fds side then
      some (fileclose p side
        (s.setFds p (update (s.proc p).fds side ((s.proc p).fds side - 1))))
    else none

def run (s : State P) : List (Action P) → Option (State P)
  | [] => some s
  | a :: as => (step s a).bind fun t => run t as

/-- The state after the process `p` has made a pipe with `pipealloc` and stored its two files in its
descriptors. The page from `kalloc` holds arbitrary bytes. -/
def pipealloc (p : P) (data : Nat → UInt8) : State P where
  pi := ⟨data, 0, 0, true, true⟩
  ref := fun _ => 1
  freed := false
  proc := fun q => ⟨⟨.runnable, none⟩, .user, fun _ => if q = p then 1 else 0⟩
  accepted := []
  delivered := []

end Xv6.Ipc
