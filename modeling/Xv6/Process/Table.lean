import Mathlib.Data.List.FinRange
import Xv6.Memlayout
import Xv6.Process.Sched

/-!
# The process table

`fork`, `exit`, `wait`, `kill`, `sleep`, `wakeup`, `yield` and the scheduler of `kernel/proc.c` on the
fixed table of `NPROC` slots. There is one hart, and a process gives up the processor only in `sched()`,
so what it does between two switches is one step. A process sleeps in `wait` on the address of its own
slot; the other places where the kernel sleeps (pipes, the log, sleep locks, the disk) are all
represented by `sleep` on some other address.

Whether memory can be allocated and whether a user address can be written is given with each step.
-/

namespace Xv6.Process

abbrev Slot := Fin NPROC

instance neZero_NPROC : NeZero NPROC := ⟨by decide⟩

/-- The addresses that a process sleeps on. -/
inductive Chan
  | slot (p : Slot)
  | other (addr : Nat)
  deriving DecidableEq

/-- Where a process stands in the kernel when it does not run. -/
inductive Place
  | user
  | syscall
  | waiting (addr : UInt64)
  | exiting (status : Int32)
  deriving DecidableEq

structure Proc where
  sched : Sched Chan
  pid : Int32
  parent : Option Slot
  killed : Bool
  xstate : Int32
  place : Place

/-- A slot without a process. -/
def Proc.free : Proc := ⟨⟨.unused, none⟩, 0, none, false, 0, .user⟩

def Proc.state (x : Proc) : ProcState := x.sched.state

abbrev Table := Slot → Proc

structure State where
  proc : Table
  nextpid : Int32
  current : Option Slot

/-- What an observer sees of `fork`, `exit` and a `wait` that returns a child. -/
inductive Event
  | fork (parent child : Int32)
  | exit (pid status : Int32)
  | wait (waiter child : Int32) (addr : UInt64) (status : Option Int32)
  deriving DecidableEq

/-! ## Functions on the table -/

namespace Table

def set (t : Table) (q : Slot) (x : Proc) : Table := Function.update t q x

/-- `wakeup` while the process `me` runs. -/
def wakeup (me : Option Slot) (c : Chan) (t : Table) : Table := fun q =>
  if some q = me then t q else { t q with sched := (t q).sched.wakeup c }

/-- Give the children of `p` to `proc[0]`. -/
def reparent (me : Option Slot) (p : Slot) (t : Table) : Table :=
  (List.finRange NPROC).foldl (fun t q =>
    if (t q).parent = some p then
      wakeup me (.slot 0) (t.set q { t q with parent := some 0 })
    else t) t

/-- `wakeup(p->parent)`; nobody sleeps on the null pointer. -/
def wakeParent (me : Option Slot) (p : Slot) (t : Table) : Table :=
  match (t p).parent with
  | some r => t.wakeup me (.slot r)
  | none => t

/-- `sleep` as called by `p`. -/
def sleep (t : Table) (p : Slot) (c : Chan) (at' : Place) : Table :=
  t.set p { t p with sched := .sleep c, place := at' }

/-- The first child of `p` that `wait` finds dead. -/
def zombieChild (t : Table) (p : Slot) : Option Slot :=
  (List.finRange NPROC).find? fun q => (t q).parent = some p ∧ (t q).state = .zombie

def havekids (t : Table) (p : Slot) : Bool :=
  (List.finRange NPROC).any fun q => (t q).parent = some p

def kill (t : Table) (pid : Int32) : Table :=
  match (List.finRange NPROC).find? fun q => (t q).pid = pid ∧ (t q).state ≠ .unused with
  | some q => t.set q { t q with killed := true, sched := (t q).sched.kill }
  | none => t

end Table

namespace State

def setProc (s : State) (q : Slot) (x : Proc) : State := { s with proc := s.proc.set q x }

def freeproc (s : State) (q : Slot) : State := s.setProc q .free

/-- `allocproc`; `frames` tells whether the trap frame and the page table could be allocated. -/
def allocproc (s : State) (frames : Bool) : Option Slot × State :=
  match (List.finRange NPROC).find? fun q => (s.proc q).state = .unused with
  | none => (none, s)
  | some q =>
    let s : State :=
      { s with
        proc := s.proc.set q
          { s.proc q with
            sched := ⟨.used, none⟩, pid := s.nextpid, parent := none, killed := false, xstate := 0 }
        nextpid := s.nextpid + 1 }
    if frames then (some q, s) else (none, s.freeproc q)

/-- `fork` as called by `p`; `copied` tells whether `uvmcopy` succeeds. -/
def fork (s : State) (p : Slot) (frames copied : Bool) : State × List Event :=
  match s.allocproc frames with
  | (none, s) => (s, [])
  | (some np, s) =>
    if copied then
      (s.setProc np
        { s.proc np with
          sched := { (s.proc np).sched with state := .runnable }, parent := some p, place := .user },
        [.fork (s.proc p).pid (s.proc np).pid])
    else (s.freeproc np, [])

/-- `exit` as called by `p`, from the point where its files are closed. That `p` is not `proc[0]` is
tested when the function is entered. -/
def exit (s : State) (p : Slot) (status : Int32) : State × List Event :=
  let t := (s.proc.reparent s.current p).wakeParent s.current p
  ({ s with
      proc := t.set p
        { t p with sched := { (t p).sched with state := .zombie }, xstate := status, place := .user }
      current := none },
    [.exit (s.proc p).pid status])

/-- The system call of `p` is over. -/
def back (s : State) (p : Slot) : State := s.setProc p { s.proc p with place := .user }

/-- One round of the loop of `wait` as called by `p`; `copyout` tells whether `addr` can be written. -/
def wait (s : State) (p : Slot) (addr : UInt64) (copyout : Bool) : State × List Event :=
  match s.proc.zombieChild p with
  | some q =>
    if addr ≠ 0 ∧ copyout = false then (s.back p, [])
    else
      ((s.back p).freeproc q,
        [.wait (s.proc p).pid (s.proc q).pid addr (if addr ≠ 0 then some (s.proc q).xstate else none)])
  | none =>
    if s.proc.havekids p = false ∨ (s.proc p).killed = true then (s.back p, [])
    else ({ s with proc := s.proc.sleep p (.slot p) (.waiting addr), current := none }, [])

/-- The process goes on after `sched()` has returned in `sleep`. -/
def awake (s : State) (p : Slot) : State :=
  s.setProc p { s.proc p with sched := { (s.proc p).sched with chan := none } }

end State

/-! ## Steps -/

inductive Action
  | dispatch (p : Slot)
  | yield
  | fork (frames copied : Bool)
  | exit (status : Int32)
  | exitSleep (status : Int32) (chan : Nat)
  | wait (addr : UInt64) (copyout : Bool)
  | resume (copyout : Bool) (chan : Option Nat)
  | kill (pid : Int32)
  | sleep (chan : Nat)
  | wakeup (chan : Nat)
  deriving DecidableEq

/-- A step of the process `p` that runs. `exit` by `proc[0]` stops the kernel. -/
def stepOf (s : State) (p : Slot) : Action → Option (State × List Event)
  | .dispatch _ => none
  | .wakeup _ => none
  | .resume copyout chan =>
    match (s.proc p).place with
    | .user => none
    | .syscall => some ((s.awake p).back p, [])
    | .waiting addr => some ((s.awake p).wait p addr copyout)
    | .exiting status =>
      -- closing the files may sleep any number of times
      match chan with
      | some c => some ({ s with proc := s.proc.sleep p (.other c) (.exiting status), current := none }, [])
      | none => if p ≠ 0 then some ((s.awake p).exit p status) else none
  | .yield =>
    if (s.proc p).place = .user then
      some ({ s with
        proc := s.proc.set p { s.proc p with sched := { (s.proc p).sched with state := .runnable } }
        current := none }, [])
    else none
  | .fork frames copied => if (s.proc p).place = .user then some (s.fork p frames copied) else none
  | .exit status =>
    if (s.proc p).place = .user ∧ p ≠ 0 then some (s.exit p status) else none
  | .exitSleep status c =>
    if (s.proc p).place = .user ∧ p ≠ 0 then
      some ({ s with proc := s.proc.sleep p (.other c) (.exiting status), current := none }, [])
    else none
  | .wait addr copyout => if (s.proc p).place = .user then some (s.wait p addr copyout) else none
  | .kill pid =>
    if (s.proc p).place = .user then some ({ s with proc := s.proc.kill pid }, []) else none
  | .sleep c =>
    if (s.proc p).place = .user then
      some ({ s with proc := s.proc.sleep p (.other c) .syscall, current := none }, [])
    else none

/-- One step of the machine: the scheduler picks a process, the one that runs takes a step, or somebody
is woken on another channel. -/
def step (s : State) (a : Action) : Option (State × List Event) :=
  match a with
  | .dispatch p =>
    if s.current = none ∧ (s.proc p).state = .runnable then
      some ({ s with
        proc := s.proc.set p { s.proc p with sched := { (s.proc p).sched with state := .running } }
        current := some p }, [])
    else none
  | .wakeup c => some ({ s with proc := s.proc.wakeup s.current (.other c) }, [])
  | a =>
    match s.current with
    | some p => stepOf s p a
    | none => none

/-- A sequence of steps, with the events in their order. -/
def run (s : State) : List Action → Option (State × List Event)
  | [] => some (s, [])
  | a :: as => do
    let (s, es) ← step s a
    let (s, es') ← run s as
    pure (s, es ++ es')

/-- The table as `procinit` leaves it. -/
def procinit : State := ⟨fun _ => .free, 1, none⟩

/-- `userinit` makes the first process. -/
def userinit (s : State) : State :=
  match s.allocproc true with
  | (some p, s) =>
    s.setProc p { s.proc p with sched := { (s.proc p).sched with state := .runnable } }
  | (none, s) => s

/-- Whether the action calls `allocproc`. -/
def Action.allocs : Action → Bool
  | .fork _ _ => true
  | _ => false

/-- The number of calls of `allocproc`, that of `userinit` included. -/
def allocprocCalls (as : List Action) : Nat :=
  1 + as.countP Action.allocs

end Xv6.Process
