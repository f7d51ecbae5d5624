import Xv6.Fs.Dir
import Xv6.Memlayout
import Xv6.Coop.Pool

/-!
# File system calls

The calls of `kernel/sysfile.c` that use the file system, with the parts of `kernel/file.c` and of
`fork`, `exec` and `exit` that they use. The arguments are those that `argstr` and `argint`
deliver; a call whose arguments cannot be fetched returns before it looks at the state. The result
`-1` is kept as the source has it. Pipes and the console are left out.

`machine` runs the calls of any number of processes in any interleaving.
-/

namespace Xv6.Fs

open Data Coop Prog Storage

abbrev O_RDONLY : UInt32 := 0x000
abbrev O_WRONLY : UInt32 := 0x001
abbrev O_RDWR : UInt32 := 0x002
abbrev O_CREATE : UInt32 := 0x200
abbrev O_TRUNC : UInt32 := 0x400

/-! ## Open files -/

/-- The first file without references gets one. -/
def filealloc : Prog State (Option (Fin NFILE)) :=
  step fun s =>
    match (List.finRange NFILE).find? fun f => decide ((s.ftable f).ref = 0) with
    | some f => .ok (some f, s.modFile f fun ff => { ff with ref := 1 })
    | none => .ok (none, s)

/-- The first free descriptor of the process gets the file. -/
def fdalloc (p : Pid) (f : Fin NFILE) : Prog State (Option (Fin NOFILE)) :=
  step fun s =>
    match (List.finRange NOFILE).find? fun fd => s.ofile p fd == none with
    | some fd => .ok (some fd, s.setOfile p fd (some f))
    | none => .ok (none, s)

def filedup (f : Fin NFILE) : Prog State Unit := do
  check (fun s => decide (1 ≤ (s.ftable f).ref)) "filedup"
  modify fun s => s.modFile f fun ff => { ff with ref := ff.ref + 1 }

/-- The section of `fileclose` under the table lock. A final close returns the file as it was. -/
def fileRelease (f : Fin NFILE) (s : State) : Except String (Option File × State) :=
  let ff := s.ftable f
  if ff.ref < 1 then .error "fileclose"
  else if 0 < ff.ref - 1 then .ok (none, s.modFile f fun ff => { ff with ref := ff.ref - 1 })
  else .ok (some ff, s.modFile f fun ff => { ff with ref := 0, type := .none })

def fileclose (p : Pid) (f : Fin NFILE) : Prog State Unit := do
  match ← step (fileRelease f) with
  | none => pure ()
  | some ff =>
    if ff.type = .inode then
      beginOp p
      iput p ff.ip
      endOp p

/-- The file is an open inode that is not a device; `f->ip->type` is read without the lock. -/
def isPlain (f : Fin NFILE) (s : State) : Bool :=
  decide ((s.ftable f).type = .inode ∧ (s.din (s.ftable f).ip).type ≠ T_DEVICE)

def filestat (p : Pid) (f : Fin NFILE) : Prog State (Option Dinode) := do
  let ff ← gets fun s => s.ftable f
  if ff.type ≠ .inode then pure none
  else
    ilock p ff.ip
    let d ← gets fun s => s.din ff.ip
    iunlock p ff.ip
    pure (some d)

def fileread (p : Pid) (f : Fin NFILE) (ok : Nat → Nat → Bool) (n : Nat) : Prog State Int := do
  let ff ← gets fun s => s.ftable f
  let plain ← gets (isPlain f)
  if ff.readable = false ∨ plain = false then pure (-1)
  else
    ilock p ff.ip
    let off ← gets fun s => (s.ftable f).off
    let l ← readi p ff.ip ok off (UInt32.ofNat n)
    modify fun s => s.modFile f fun ff => { ff with off := ff.off + UInt32.ofNat l.length }
    iunlock p ff.ip
    pure l.length

/-- The most that one transaction of `filewrite` writes. -/
abbrev WRITEMAX : Nat := (MAXOPBLOCKS - 1) / 2 * BSIZE

/-- The loop of `filewrite` with `n` bytes to go and `tot` bytes written, the `ret` of the source.
Both `src` and `ret` have advanced by what was written. A round that does not end the loop writes at least one byte. -/
def filewriteLoop (p : Pid) (f : Fin NFILE) (src : Source) : Nat → Nat → Nat → Prog State Int
  | 0, _, tot => pure tot
  | k + 1, n, tot => do
    if 0 < n then
      let n := min n WRITEMAX
      let ff ← gets fun s => s.ftable f
      beginOp p
      let r ← writei p ff.ip (src.shift (2 * tot)) ff.off (UInt32.ofNat n)
      endOp p
      match r with
      | none => pure (if tot = 0 then -1 else tot)
      | some 0 => pure tot
      | some r =>
        modify fun s => s.modFile f fun ff => { ff with off := ff.off + UInt32.ofNat r }
        filewriteLoop p f src k (n - r) (tot + r)
    else pure tot

def filewrite (p : Pid) (f : Fin NFILE) (src : Source) (n : Nat) : Prog State Int := do
  let ff ← gets fun s => s.ftable f
  if ff.writable = false then pure (-1)
  else
    let type ← gets fun s => (s.din ff.ip).type
    if ff.type ≠ .inode ∨ type = T_DEVICE then pure (-1)
    else
      ilock p ff.ip
      modify fun s => s.modFile f fun ff =>
        { ff with off := if (s.din ff.ip).size < ff.off then (s.din ff.ip).size else ff.off }
      let tot ← filewriteLoop p f src n n 0
      iunlock p ff.ip
      pure tot

/-! ## Creating an inode -/

/-- What `create` does with a name that exists already. -/
def createExisting (p : Pid) (type : UInt16) (ip : Fin NINODE) : Prog State (Option (Fin NINODE)) := do
  ilock p ip
  let found ← gets fun s => (s.din ip).type
  if (type = T_FILE ∧ (found = T_FILE ∨ found = T_DEVICE)) ∨ (type = T_DIR ∧ found = T_DIR) then
    pure (some ip)
  else
    iunlockput p ip
    pure none

/-- The failure path of `create`. The inode is still locked at the first `iput`. -/
def createFail (p : Pid) (ip dp : Fin NINODE) : Prog State (Option (Fin NINODE)) := do
  let type ← gets fun s => (s.din ip).type
  if type = T_DIR then
    modify fun s => s.modDin dp fun d => { d with nlink := d.nlink - 1 }
    iupdate p dp
  modify fun s => s.modDin ip fun d => { d with nlink := 0 }
  iupdate p ip
  iput p ip
  iunlockput p ip
  iunlockput p dp
  pure none

/-- The entries `.` and `..` of a new directory. -/
def createDots (p : Pid) (ip dp : Fin NINODE) : Prog State Bool := do
  let inum ← gets fun s => (s.icache ip).inum
  let ok ← dirlink p ip [DOT] inum
  if ok then
    let parent ← gets fun s => (s.icache dp).inum
    dirlink p ip [DOT, DOT] parent
  else pure false

def create (p : Pid) (path : List UInt8) (type major minor : UInt16) :
    Prog State (Option (Fin NINODE)) := do
  match ← nameiparent p path with
  | none => pure none
  | some (dp, name) =>
    ilock p dp
    match ← dirlookup p dp name with
    | some (ip, _) =>
      iunlockput p dp
      createExisting p type ip
    | none =>
      match ← iallocAlloc p type with
      | none =>
        iunlockput p dp
        pure none
      | some ip =>
        ilock p ip
        modify fun s => s.modDin ip fun d => { d with major := major, minor := minor, nlink := 1 }
        iupdate p ip
        let dots ←
          if type = T_DIR then do
            modify fun s => s.modDin dp fun d => { d with nlink := d.nlink + 1 }
            iupdate p dp
            createDots p ip dp
          else pure true
        if dots then
          let inum ← gets fun s => (s.icache ip).inum
          let ok ← dirlink p dp name inum
          if ok then
            iunlockput p dp
            pure (some ip)
          else createFail p ip dp
        else createFail p ip dp

/-! ## The calls -/

def endWith (p : Pid) (r : Int) : Prog State Int := do
  endOp p
  pure r

/-- Publish the opened inode in a descriptor. -/
def openFile (p : Pid) (ip : Fin NINODE) (omode : UInt32) : Prog State Int := do
  match ← filealloc with
  | none =>
    iunlockput p ip
    endWith p (-1)
  | some f =>
    match ← fdalloc p f with
    | none =>
      fileclose p f
      iunlockput p ip
      endWith p (-1)
    | some fd =>
      modify fun s => s.modFile f fun ff =>
        { ff with
          type := .inode
          ip := ip
          off := 0
          readable := omode &&& O_WRONLY == 0
          writable := omode &&& O_WRONLY != 0 || omode &&& O_RDWR != 0 }
      let type ← gets fun s => (s.din ip).type
      if omode &&& O_TRUNC ≠ 0 ∧ type = T_FILE then
        itrunc p ip
        iupdate p ip
      iunlock p ip
      endWith p fd

/-- `create`, or the inode of an existing name, locked. -/
def openInode (p : Pid) (path : List UInt8) (omode : UInt32) : Prog State (Option (Fin NINODE)) := do
  if omode &&& O_CREATE ≠ 0 then create p path T_FILE 0 0
  else
    match ← namei p path with
    | none => pure none
    | some ip =>
      ilock p ip
      pure (some ip)

def sysOpen (p : Pid) (path : List UInt8) (omode : UInt32) : Prog State Int := do
  beginOp p
  if omode &&& ~~~(O_RDONLY ||| O_WRONLY ||| O_RDWR ||| O_CREATE ||| O_TRUNC) ≠ 0 then endWith p (-1)
  else
    match ← openInode p path omode with
    | none => endWith p (-1)
    | some ip =>
      let type ← gets fun s => (s.din ip).type
      if type = T_DIR ∧ omode ≠ O_RDONLY then
        iunlockput p ip
        endWith p (-1)
      else openFile p ip omode

/-- `sys_mknod` and `sys_mkdir` differ in what they create. -/
def createAndClose (p : Pid) (path : List UInt8) (type major minor : UInt16) : Prog State Int := do
  beginOp p
  match ← create p path type major minor with
  | none => endWith p (-1)
  | some ip =>
    iunlockput p ip
    endWith p 0

def sysMknod (p : Pid) (path : List UInt8) (major minor : UInt16) : Prog State Int :=
  createAndClose p path T_DEVICE major minor

def sysMkdir (p : Pid) (path : List UInt8) : Prog State Int := createAndClose p path T_DIR 0 0

/-- The failure path of `sys_link`. -/
def linkBad (p : Pid) (ip : Fin NINODE) : Prog State Int := do
  ilock p ip
  modify fun s => s.modDin ip fun d => { d with nlink := d.nlink - 1 }
  iupdate p ip
  iunlockput p ip
  endWith p (-1)

def sysLink (p : Pid) (old new : List UInt8) : Prog State Int := do
  beginOp p
  match ← namei p old with
  | none => endWith p (-1)
  | some ip =>
    ilock p ip
    let type ← gets fun s => (s.din ip).type
    if type = T_DIR then
      iunlockput p ip
      endWith p (-1)
    else
      modify fun s => s.modDin ip fun d => { d with nlink := d.nlink + 1 }
      iupdate p ip
      iunlock p ip
      match ← nameiparent p new with
      | none => linkBad p ip
      | some (dp, name) =>
        ilock p dp
        let inum ← gets fun s => (s.icache ip).inum
        let ok ← dirlink p dp name inum
        iunlockput p dp
        if ok then
          iput p ip
          endWith p 0
        else linkBad p ip

def sysUnlink (p : Pid) (path : List UInt8) : Prog State Int := do
  beginOp p
  let ok ← unlinkHelper p path
  endWith p (if ok then 0 else -1)

/-- A descriptor out of range has no file. A process without a file at descriptor `1` writes at
most 64 bytes to the console. -/
def sysWrite (p : Pid) (fd : Nat) (src : Source) (n : Int) : Prog State Int := do
  if h : fd < NOFILE then
    if n ≤ 0 then pure 0
    else
      match ← gets fun s => s.ofile p ⟨fd, h⟩ with
      | none =>
        if fd = 1 then
          let m := min n.toNat 64
          pure (if src.copied 0 m = m then m else -1)
        else pure (-1)
      | some f => filewrite p f src n.toNat
  else pure (-1)

def sysClose (p : Pid) (fd : Nat) : Prog State Int := do
  if h : fd < NOFILE then
    match ← gets fun s => s.ofile p ⟨fd, h⟩ with
    | none => pure (-1)
    | some f =>
      modify fun s => s.setOfile p ⟨fd, h⟩ none
      fileclose p f
      pure 0
  else pure (-1)

def exitClose (p : Pid) (fd : Nat) : Prog State Unit := do
  if h : fd < NOFILE then
    match ← gets fun s => s.ofile p ⟨fd, h⟩ with
    | none => pure ()
    | some f =>
      modify fun s => s.setOfile p ⟨fd, h⟩ none
      fileclose p f

def exitFiles (p : Pid) : Prog State Int := do
  if p = 1 then Prog.panic "init exiting"
  else
    loop (exitClose p) 0 NOFILE
    beginOp p
    match ← gets fun s => s.cwd p with
    | none => pure ()
    | some ip =>
      iput p ip
      modify fun s => s.setCwd p none
    endOp p
    modify fun s => s.setAlive p false
    pure 0

def sysRead (p : Pid) (fd : Nat) (ok : Nat → Nat → Bool) (n : Int) : Prog State Int := do
  if h : fd < NOFILE then
    match ← gets fun s => s.ofile p ⟨fd, h⟩ with
    | none => pure (-1)
    | some f => if n ≤ 0 then pure 0 else fileread p f ok n.toNat
  else pure (-1)

/-- `ok` says whether the copy to the user succeeds. -/
def sysFstat (p : Pid) (fd : Nat) (ok : Bool) : Prog State Int := do
  if h : fd < NOFILE then
    match ← gets fun s => s.ofile p ⟨fd, h⟩ with
    | none => pure (-1)
    | some f =>
      let st ← filestat p f
      pure (if st.isSome && ok then 0 else -1)
  else pure (-1)

def sysDup (p : Pid) (fd : Nat) : Prog State Int := do
  if h : fd < NOFILE then
    match ← gets fun s => s.ofile p ⟨fd, h⟩ with
    | none => pure (-1)
    | some f =>
      match ← fdalloc p f with
      | none => pure (-1)
      | some nd =>
        filedup f
        pure nd
  else pure (-1)

/-- There is no `begin_op` around it. -/
def sysChdir (p : Pid) (path : List UInt8) : Prog State Int := do
  match ← namei p path with
  | none => pure (-1)
  | some ip =>
    ilock p ip
    let type ← gets fun s => (s.din ip).type
    if type ≠ T_DIR then
      iunlockput p ip
      pure (-1)
    else
      iunlock p ip
      match ← gets fun s => s.cwd p with
      | none => pure ()
      | some old => iput p old
      modify fun s => s.setCwd p (some ip)
      pure 0

/-! ## Processes -/

/-- One descriptor of a new process. -/
def forkDup (p q : Pid) (fd : Nat) : Prog State Unit := do
  if h : fd < NOFILE then
    match ← gets fun s => s.ofile p ⟨fd, h⟩ with
    | none => pure ()
    | some f =>
      filedup f
      modify fun s => s.setOfile q ⟨fd, h⟩ (some f)

/-- The part of `fork` that concerns the file system, once the new process has its memory. -/
def forkFiles (p q : Pid) : Prog State Int := do
  loop (forkDup p q) 0 NOFILE
  match ← gets fun s => s.cwd p with
  | none => pure ()
  | some ip =>
    let ip ← idup ip
    modify fun s => s.setCwd q (some ip)
  modify fun s => s.setAlive q true
  pure q

/-- What `exec` is told by `uvmcreate`, by `uvmalloc` for each segment, and by `walkaddr` for each
page of it. -/
structure Answers where
  created : Bool
  grown : Nat → Bool
  mapped : Nat → Nat → Bool

/-- The number in the `k` bytes at offset `o`. -/
def field (l : List UInt8) (o k : Nat) : Nat := Bytes.le ((l.drop o).take k)

abbrev ELFSIZE : Nat := 64
abbrev PHSIZE : Nat := 56
abbrev ELF_MAGIC : Nat := 0x464C457F
abbrev ELF_PROG_LOAD : Nat := 1

/-- A read into the memory of the kernel. -/
def readKernel (p : Pid) (ip : Fin NINODE) (off n : Nat) : Prog State (List UInt8) :=
  readi p ip (fun _ _ => true) (UInt32.ofNat off) (UInt32.ofNat n)

/-- The loop of `exec` over the pages of segment `i` from page `j` on. -/
def loadPages (p : Pid) (ip : Fin NINODE) (a : Answers) (ph : List UInt8) (i : Nat) :
    Nat → Nat → Prog State Bool
  | 0, _ => pure true
  | k + 1, j => do
    let n := min PGSIZE (field ph 32 8 - j * PGSIZE)
    if a.mapped i j then
      let l ← readKernel p ip (field ph 8 8 + j * PGSIZE) n
      if l.length = n then loadPages p ip a ph i k (j + 1) else pure false
    else pure false

/-- `ph.memsz < ph.filesz`, an address that overflows, or one in the middle of a page. -/
def badSegment (ph : List UInt8) : Bool :=
  decide (field ph 40 8 < field ph 32 8 ∨ 2 ^ 64 ≤ field ph 16 8 + field ph 40 8 ∨
    field ph 16 8 % PGSIZE ≠ 0)

/-- The loop of `exec` over the program headers from the `i`-th on. -/
def loadSegments (p : Pid) (ip : Fin NINODE) (a : Answers) (elf : List UInt8) :
    Nat → Nat → Prog State Bool
  | 0, _ => pure true
  | k + 1, i => do
    let ph ← readKernel p ip (field elf 32 8 + i * PHSIZE) PHSIZE
    if ph.length ≠ PHSIZE then pure false
    else if field ph 0 4 ≠ ELF_PROG_LOAD then loadSegments p ip a elf k (i + 1)
    else if badSegment ph ∨ a.grown i = false then pure false
    else
      let ok ← loadPages p ip a ph i ((field ph 32 8 + PGSIZE - 1) / PGSIZE) 0
      if ok then loadSegments p ip a elf k (i + 1) else pure false

/-- The part of `exec` up to `end_op`, on all of its paths. -/
def execFile (p : Pid) (path : List UInt8) (a : Answers) : Prog State Int := do
  beginOp p
  match ← namei p path with
  | none => endWith p (-1)
  | some ip =>
    ilock p ip
    let elf ← readKernel p ip 0 ELFSIZE
    let ok ←
      if elf.length ≠ ELFSIZE ∨ field elf 0 4 ≠ ELF_MAGIC ∨ a.created = false then pure false
      else loadSegments p ip a elf (field elf 56 2) 0
    iunlockput p ip
    endWith p (if ok then 0 else -1)

/-! ## The machine -/

inductive Call
  | open (path : List UInt8) (omode : UInt32)
  | read (fd : Nat) (ok : Nat → Nat → Bool) (n : Int)
  | write (fd : Nat) (src : Source) (n : Int)
  | close (fd : Nat)
  | dup (fd : Nat)
  | fstat (fd : Nat) (ok : Bool)
  | mknod (path : List UInt8) (major minor : UInt16)
  | mkdir (path : List UInt8)
  | link (old new : List UInt8)
  | unlink (path : List UInt8)
  | chdir (path : List UInt8)
  | fork (q : Pid)
  | exec (path : List UInt8) (a : Answers)
  | exit

def Call.code (p : Pid) : Call → Prog State Int
  | .open path omode => sysOpen p path omode
  | .read fd ok n => sysRead p fd ok n
  | .write fd src n => sysWrite p fd src n
  | .close fd => sysClose p fd
  | .dup fd => sysDup p fd
  | .fstat fd ok => sysFstat p fd ok
  | .mknod path major minor => sysMknod p path major minor
  | .mkdir path => sysMkdir p path
  | .link old new => sysLink p old new
  | .unlink path => sysUnlink p path
  | .chdir path => sysChdir p path
  | .fork q => forkFiles p q
  | .exec path a => execFile p path a
  | .exit => exitFiles p

/-- A process makes calls from the `fork` that makes it to its `exit`; a path that `argstr` delivers
has less than `MAXPATH` bytes, which nothing below depends on. -/
def machine : Machine State Call Int where
  code p c := c.code p
  may p c s := s.alive p = true ∧ ∀ q, c = .fork q → s.alive q = false
  fail _ _ := False

end Xv6.Fs
