import Xv6.Param
import Xv6.Process.Table
import Xv6.Vm.User

/-!
# Processes, their memory and their pipes

The system calls that move physical pages: `fork`, `exec`, `exit`, `wait`, `pipe`, `close` and `dup`, on
the process table, the page tables in physical memory and the file table. What a process does between
two points where it may give up the processor is one step. `exec` reads its file in between, so it is
divided into the parts before and after a read; what it has allocated so far is kept in `Exec`.

What is read from files or from user memory, and whether a user address can be written, is given with
each step. A step that panics is no step. All files are pipes: files on disk hold no page of memory.
A process inside of `piperead` or `pipewrite` is marked in `io`, and `log` lists, the last one first,
what was done with the pipes; the data in a pipe are left out.
-/

namespace Xv6.Kernel

open Coop Prog Vm Process Function

structure Space where
  trapframe : UInt64
  pagetable : UInt64
  sz : UInt64

/-- What a process holds while it is in `sys_exec`: the pages for the arguments, the new page table and
its size. `stacked` tells that the user stack is there and the file has been read. -/
structure Exec where
  argv : List UInt64
  table : Option UInt64
  sz : UInt64
  stacked : Bool

/-- An entry of the file table: the page of the pipe and whether this is the end for writing. An entry
without pipe has the type `FD_NONE`. -/
structure File where
  ref : Nat
  pipe : Option (UInt64 × Bool)

/-- A pipe is made, `pipeclose` is called for one of its ends and frees its page or not, or `piperead`
or `pipewrite` uses it. -/
inductive PipeEvent
  | made (pi : UInt64)
  | closed (pi : UInt64) (writable freed : Bool)
  | used (pi : UInt64) (writable : Bool)
  deriving DecidableEq

/-- What a process inside of `piperead` or `pipewrite` works on. -/
structure PipeIo where
  fd : Fin NOFILE
  pi : UInt64
  writable : Bool

structure Sys where
  ps : Process.State
  mem : Mem
  trampoline : UInt64
  space : Slot → Option Space
  exec : Slot → Option Exec
  file : Fin NFILE → File
  ofile : Slot → Fin NOFILE → Option (Fin NFILE)
  io : Slot → Option PipeIo := fun _ => none
  log : List PipeEvent := []

/-! ## fork and wait -/

/-- How `fork` ends for the memory. -/
inductive Forked
  | noFrames
  | noCopy
  | child (x : Space)

/-- The trap frame of the parent is copied, and `a0` is set to 0. -/
def copyFrame (m : Mem) (dst src : UInt64) : Mem :=
  let frame : Fin 512 → UInt64 := fun i => if i.val < 36 then m.page src i else m.page dst i
  { m with page := update m.page dst (update frame 14 0) }

/-- The memory that `fork` gives to the child of a process with memory `x`. -/
def forkMem (trampoline : UInt64) (x : Space) : Prog Mem Forked := do
  match ← kalloc with
  | none => pure .noFrames
  | some tf =>
    match ← uvmcreate with
    | none => do
      kfree tf
      pure .noFrames
    | some pt => do
      mapFrames trampoline pt tf
      let ok ← uvmcopy x.pagetable pt x.sz
      if ok then do
        modify (copyFrame · tf x.trapframe)
        pure (.child ⟨tf, pt, x.sz⟩)
      else do
        unmapFrames pt
        kfree tf
        uvmfree pt 0
        pure .noCopy

/-- `wait` and `freeproc` for the memory of a dead child. -/
def reapMem (x : Space) : Prog Mem Unit := do
  unmapFrames x.pagetable
  kfree x.trapframe
  uvmfree x.pagetable x.sz

/-- The child that `wait`, as called by `p`, frees. -/
def reaps (s : Process.State) (p : Slot) (addr : UInt64) (copyout : Bool) : Option Slot :=
  match s.proc.zombieChild p with
  | some q => if addr ≠ 0 ∧ copyout = false then none else some q
  | none => none

/-- The child that a step of the process table frees. -/
def reapedBy (s : Process.State) : Process.Action → Option Slot
  | .wait addr copyout => s.current.bind fun p => reaps s p addr copyout
  | .resume copyout _ => s.current.bind fun p =>
      match (s.proc p).place with
      | .waiting addr => reaps (s.awake p) p addr copyout
      | _ => none
  | _ => none

/-! ## exec -/

def MAXARG : Nat := 32

/-- What `sys_exec` finds at a place of the argument array that is not null: the address cannot be read,
or the string can or cannot be fetched. -/
inductive Arg
  | fault
  | str (ok : Bool) (page : Fin 512 → UInt64)

/-- The loop of `sys_exec` with room for `n` more arguments; a null pointer ends the list. -/
def fetchArgs : Nat → List Arg → List UInt64 → Prog Mem (Bool × List UInt64)
  | 0, _, argv => pure (false, argv)
  | _ + 1, [], argv => pure (true, argv)
  | _ + 1, .fault :: _, argv => pure (false, argv)
  | n + 1, .str ok page :: rest, argv => do
    match ← kalloc with
    | none => pure (false, argv)
    | some pg => do
      modify fun m => { m with page := update m.page pg page }
      if ok then fetchArgs n rest (argv ++ [pg]) else pure (false, argv ++ [pg])

def freeArgs : List UInt64 → Prog Mem Unit
  | [] => pure ()
  | pg :: rest => do
    kfree pg
    freeArgs rest

/-- `sys_exec` up to the call of `exec`. -/
def execStart (args : List Arg) : Prog Mem (Option Exec) := do
  let (ok, argv) ← fetchArgs MAXARG args []
  if ok then pure (some ⟨argv, none, 0, false⟩)
  else do
    freeArgs argv
    pure none

/-- The labels `bad` and `bad_nolog` of `exec`, and the end of `sys_exec`. -/
def execFail (e : Exec) : Prog Mem (Option Exec) := do
  match e.table with
  | none => pure ()
  | some pt => do
    unmapFrames pt
    uvmfree pt e.sz
  freeArgs e.argv
  pure none

/-- The new page table, after the header of the file has been read. -/
def execCreate (trampoline tf : UInt64) (e : Exec) : Prog Mem (Option Exec) := do
  match ← uvmcreate with
  | none => execFail e
  | some pt => do
    mapFrames trampoline pt tf
    pure (some { e with table := some pt })

structure Segment where
  vaddr : UInt64
  memsz : UInt64
  filesz : UInt64
  exec : Bool
  write : Bool
  read : Bool

def flags2perm (ph : Segment) : UInt64 :=
  (if ph.exec then PTE_X else 0) ||| (if ph.write then PTE_W else 0) ||| (if ph.read then PTE_R else 0)

/-- One program header, up to the reading of the segment. -/
def execSegment (ph : Segment) (pt : UInt64) (e : Exec) : Prog Mem (Option Exec) := do
  if ph.memsz < ph.filesz ∨ ph.vaddr + ph.memsz < ph.vaddr ∨ ph.vaddr.toNat % PGSIZE ≠ 0 then execFail e
  else do
    let sz ← uvmalloc pt e.sz (ph.vaddr + ph.memsz) (flags2perm ph)
    if sz = 0 then execFail { e with sz := 0 } else pure (some { e with sz := sz })

/-- The user stack with its guard page. -/
def execStack (pt : UInt64) (e : Exec) : Prog Mem (Option Exec) := do
  let sz := PGROUNDUP e.sz
  let sz ← uvmalloc pt sz (sz + 2 * 4096) (PTE_R ||| PTE_W)
  if sz = 0 then execFail { e with sz := 0 }
  else do
    uvmunmap pt (sz - 2 * 4096) 1 true
    pure (some { e with sz := sz, stacked := true })

/-- The old image is replaced; `entry` and `sp` go into the trap frame. -/
def execCommit (x : Space) (e : Exec) (entry sp : UInt64) : Prog Mem Unit := do
  unmapFrames x.pagetable
  uvmfree x.pagetable x.sz
  modify (·.setWord x.trapframe 3 entry)
  modify (·.setWord x.trapframe 6 sp)
  modify (·.setWord x.trapframe 15 sp)
  freeArgs e.argv

/-! ## Writing to user memory -/

/-- The kernel copies to a user page, or the process writes to it; `page` is what it holds then. -/
def writeUser (pt va : UInt64) (page : Fin 512 → UInt64) : Prog Mem Unit := do
  let pa ← walkaddr pt va
  if pa = 0 then pure ()
  else modify fun m => { m with page := update m.page pa page }

/-! ## Pipes

Of `struct pipe` only the two flags are needed here, as the first two words of its page: the first
tells whether the end for reading is open, the second whether that for writing is. The calls of
`wakeup` are steps of their own. -/

/-- The flag of an end of a pipe. -/
def endWord (writable : Bool) : Fin 512 := if writable then 1 else 0

/-- The result tells whether the page was freed. -/
def pipeclose (pi : UInt64) (writable : Bool) : Prog Mem Bool := do
  modify (·.setWord pi (endWord writable) 0)
  let closed ← gets fun m => decide (m.page pi 0 = 0 ∧ m.page pi 1 = 0)
  if closed then do
    kfree pi
    pure true
  else pure false

namespace Sys

variable {α : Type}

/-- The memory after a program; a panic is no step. -/
def runMem (s : Sys) (x : Prog Mem α) : Option (α × Sys) :=
  match x.run s.mem with
  | .done a m => some (a, { s with mem := m })
  | .panicked _ _ => none
  | .stuck _ => none

def setFile (s : Sys) (f : Fin NFILE) (x : File) : Sys := { s with file := update s.file f x }

def setOfile (s : Sys) (p : Slot) (fd : Fin NOFILE) (f : Option (Fin NFILE)) : Sys :=
  { s with ofile := update s.ofile p (update (s.ofile p) fd f) }

def setIo (s : Sys) (p : Slot) (o : Option PipeIo) : Sys := { s with io := update s.io p o }

def note (s : Sys) (e : PipeEvent) : Sys := { s with log := e :: s.log }

def filealloc (s : Sys) : Option (Fin NFILE × Sys) :=
  match (List.finRange NFILE).find? fun f => decide ((s.file f).ref = 0) with
  | none => none
  | some f => some (f, s.setFile f { s.file f with ref := 1 })

def filedup (s : Sys) (f : Fin NFILE) : Option Sys :=
  if (s.file f).ref < 1 then none else some (s.setFile f { s.file f with ref := (s.file f).ref + 1 })

def fileclose (s : Sys) (f : Fin NFILE) : Option Sys :=
  if (s.file f).ref < 1 then none
  else if 0 < (s.file f).ref - 1 then some (s.setFile f { s.file f with ref := (s.file f).ref - 1 })
  else
    match (s.file f).pipe with
    | none => some (s.setFile f ⟨0, none⟩)
    | some (pi, writable) => do
      let (freed, s) ← (s.setFile f ⟨0, none⟩).runMem (pipeclose pi writable)
      pure (s.note (.closed pi writable freed))

/-- `pipealloc`; the outer `none` is a panic, the inner one the result -1. -/
def pipealloc (s : Sys) : Option (Option (Fin NFILE × Fin NFILE) × Sys) :=
  match s.filealloc with
  | none => some (none, s)
  | some (rf, s) =>
    match s.filealloc with
    | none => do
      let s ← s.fileclose rf
      pure (none, s)
    | some (wf, s) => do
      let (r, s) ← s.runMem kalloc
      match r with
      | none => do
        let s ← s.fileclose rf
        let s ← s.fileclose wf
        pure (none, s)
      | some pi =>
        let m := (s.mem.setWord pi (endWord false) 1).setWord pi (endWord true) 1
        let s := s.setFile rf { s.file rf with pipe := some (pi, false) }
        let s := s.setFile wf { s.file wf with pipe := some (pi, true) }
        pure (some (rf, wf), { s with mem := m }.note (.made pi))

def fdalloc (s : Sys) (p : Slot) (f : Fin NFILE) : Option (Fin NOFILE × Sys) :=
  match (List.finRange NOFILE).find? fun fd => s.ofile p fd = none with
  | none => none
  | some fd => some (fd, s.setOfile p fd (some f))

/-- Both ends of a pipe are closed again. -/
def closeBoth (s : Sys) (rf wf : Fin NFILE) : Option Sys := do
  let s ← s.fileclose rf
  s.fileclose wf

def sysPipe (s : Sys) (p : Slot) (copyout : Bool) : Option Sys := do
  let (r, s) ← s.pipealloc
  match r with
  | none => pure s
  | some (rf, wf) =>
    match s.fdalloc p rf with
    | none => s.closeBoth rf wf
    | some (fd0, s) =>
      match s.fdalloc p wf with
      | none => (s.setOfile p fd0 none).closeBoth rf wf
      | some (fd1, s) =>
        if copyout then pure s else ((s.setOfile p fd0 none).setOfile p fd1 none).closeBoth rf wf

def sysDup (s : Sys) (p : Slot) (fd : Fin NOFILE) : Option Sys :=
  match s.ofile p fd with
  | none => some s
  | some f =>
    match s.fdalloc p f with
    | none => some s
    | some (_, s) => s.filedup f

def sysClose (s : Sys) (p : Slot) (fd : Fin NOFILE) : Option Sys :=
  match s.ofile p fd with
  | none => some s
  | some f => (s.setOfile p fd none).fileclose f

/-- The loop of `exit` over the descriptors. -/
def closeAll (s : Sys) (p : Slot) : Option Sys := (List.finRange NOFILE).foldlM (sysClose · p ·) s

/-- The loop of `fork` over the descriptors. -/
def dupAll (s : Sys) (p np : Slot) : Option Sys :=
  (List.finRange NOFILE).foldlM (fun s fd =>
    match s.ofile p fd with
    | none => some s
    | some f => do
      let s ← s.filedup f
      pure (s.setOfile np fd (some f))) s

/-! ## Steps -/

/-- The running process, if it is not inside of a system call. -/
def user (s : Sys) : Option Slot :=
  s.ps.current.bind fun p =>
    if (s.ps.proc p).place = .user ∧ (s.exec p).isNone ∧ (s.io p).isNone then some p else none

/-- The running process, if it is inside of `exec`. -/
def inExec (s : Sys) : Option (Slot × Exec) :=
  s.ps.current.bind fun p => if (s.ps.proc p).place = .user then (s.exec p).map (p, ·) else none

/-- The running process, if it is inside of `piperead` or `pipewrite`. -/
def inPipe (s : Sys) : Option (Slot × PipeIo) :=
  s.ps.current.bind fun p => if (s.ps.proc p).place = .user then (s.io p).map (p, ·) else none

/-- `fileread` or `filewrite` calls `piperead` or `pipewrite`. -/
def pipeCall (s : Sys) (p : Slot) (fd : Fin NOFILE) (writable : Bool) : Option Sys := do
  let f ← s.ofile p fd
  let (pi, w) ← (s.file f).pipe
  if w = writable then pure ((s.setIo p (some ⟨fd, pi, w⟩)).note (.used pi w)) else none

/-- `fork` as called by `p`. -/
def fork (s : Sys) (p : Slot) : Option Sys := do
  let x ← s.space p
  match (List.finRange NPROC).find? fun q => (s.ps.proc q).state = .unused with
  | none => pure s
  | some np =>
    let (r, s) ← s.runMem (forkMem s.trampoline x)
    match r with
    | .noFrames => pure { s with ps := (s.ps.fork p false false).1 }
    | .noCopy => pure { s with ps := (s.ps.fork p true false).1 }
    | .child y =>
      let s : Sys :=
        { s with
          ps := (s.ps.fork p true true).1
          space := update s.space np (some y)
          ofile := update s.ofile np fun _ => none }
      s.dupAll p np

/-- A step of the process table other than `fork`. -/
def procStep (s : Sys) (a : Process.Action) : Option Sys := do
  let (ps, _) ← Process.step s.ps a
  match reapedBy s.ps a with
  | none => pure { s with ps := ps }
  | some q =>
    let x ← s.space q
    let (_, s) ← s.runMem (reapMem x)
    pure { s with ps := ps, space := update s.space q none }

/-- A part of `exec`: the process goes on with what is left of it. -/
def execStep (s : Sys) (p : Slot) (x : Prog Mem (Option Exec)) : Option Sys := do
  let (e, s) ← s.runMem x
  pure { s with exec := update s.exec p e }

end Sys

inductive Act
  | proc (a : Process.Action)
  | fork
  | exec (args : List Arg)
  | create
  | segment (ph : Segment)
  | stack
  | commit (entry sp : UInt64)
  | fail
  | store (va : UInt64) (page : Fin 512 → UInt64)
  | load (va : UInt64) (page : Fin 512 → UInt64)
  | pipe (copyout : Bool)
  | close (fd : Fin NOFILE)
  | dup (fd : Fin NOFILE)
  | pipeCall (fd : Fin NOFILE) (writable : Bool)
  | pipeGo
  | pipeReturn

def step (s : Sys) : Act → Option Sys
  | .proc a =>
    match a with
    | .fork _ _ => none
    | .exit _ | .exitSleep _ _ => do
      let p ← s.user
      let s ← s.closeAll p
      s.procStep a
    | .yield | .wait _ _ | .kill _ => do
      let _ ← s.user
      s.procStep a
    | _ => s.procStep a
  | .fork => do
    let p ← s.user
    s.fork p
  | .exec args => do
    let p ← s.user
    s.execStep p (execStart args)
  | .create => do
    let (p, e) ← s.inExec
    let x ← s.space p
    if e.table = none then s.execStep p (execCreate s.trampoline x.trapframe e) else none
  | .segment ph => do
    let (p, e) ← s.inExec
    let pt ← e.table
    if e.stacked then none else s.execStep p (execSegment ph pt e)
  | .stack => do
    let (p, e) ← s.inExec
    let pt ← e.table
    if e.stacked then none else s.execStep p (execStack pt e)
  | .commit entry sp => do
    let (p, e) ← s.inExec
    let pt ← e.table
    let x ← s.space p
    if e.stacked then do
      let (_, s) ← s.runMem (execCommit x e entry sp)
      pure
        { s with
          space := update s.space p (some ⟨x.trapframe, pt, e.sz⟩)
          exec := update s.exec p none }
    else none
  | .fail => do
    let (p, e) ← s.inExec
    s.execStep p (execFail e)
  | .store va page => do
    let p ← s.ps.current
    let x ← s.space p
    let (_, s) ← s.runMem (writeUser x.pagetable va page)
    pure s
  | .load va page => do
    let (_, e) ← s.inExec
    let pt ← e.table
    let (_, s) ← s.runMem (writeUser pt va page)
    pure s
  | .pipe copyout => do
    let p ← s.user
    s.sysPipe p copyout
  | .close fd => do
    let p ← s.user
    s.sysClose p fd
  | .dup fd => do
    let p ← s.user
    s.sysDup p fd
  | .pipeCall fd writable => do
    let p ← s.user
    s.pipeCall p fd writable
  | .pipeGo => do
    let (_, io) ← s.inPipe
    pure (s.note (.used io.pi io.writable))
  | .pipeReturn => do
    let (p, _) ← s.inPipe
    pure (s.setIo p none)

def run (s : Sys) : List Act → Option Sys
  | [] => some s
  | a :: as => do
    let s ← step s a
    run s as

end Xv6.Kernel
