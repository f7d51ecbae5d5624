import Xv6.Fs.Inode

/-!
# Directories and paths

The directory helpers and the path traversal of `kernel/fs.c`. A path is the list of the bytes
before its terminating zero byte.
-/

namespace Xv6.Fs

open Data Coop Prog Storage

/-- The size of `struct dirent`. -/
abbrev DESIZE : Nat := 16

/-- `readi(dp, 0, &de, off, sizeof(de)) != sizeof(de)` is a panic with the given message. -/
def readDirent (p : Pid) (dp : Fin NINODE) (off : Nat) (msg : String) : Prog State Dirent := do
  let l ← readi p dp (fun _ _ => true) (UInt32.ofNat off) (UInt32.ofNat DESIZE)
  if l.length = DESIZE then pure (Dirent.decode l) else Prog.panic msg

/-- The loop of `dirlookup` from offset `off` on. The result is the inode with the offset of its
entry. -/
def dirlookupFrom (p : Pid) (dp : Fin NINODE) (name : List UInt8) :
    Nat → Nat → Prog State (Option (Fin NINODE × Nat))
  | 0, _ => pure none
  | k + 1, off => do
    let size ← gets fun s => (s.din dp).size.toNat
    if off < size then
      let de ← readDirent p dp off "dirlookup read"
      if de.inum = 0 then dirlookupFrom p dp name k (off + DESIZE)
      else if nameEq name de.name then
        let ip ← iget de.inum.toNat
        pure (some (ip, off))
      else dirlookupFrom p dp name k (off + DESIZE)
    else pure none

def dirlookup (p : Pid) (dp : Fin NINODE) (name : List UInt8) : Prog State (Option (Fin NINODE × Nat)) := do
  check (fun s => (s.din dp).type == T_DIR) "dirlookup not DIR"
  let size ← gets fun s => (s.din dp).size.toNat
  dirlookupFrom p dp name (size + 1) 0

/-- The second loop of `dirlink`: the offset of a free entry, or the end of the directory. -/
def dirlinkSlot (p : Pid) (dp : Fin NINODE) : Nat → Nat → Prog State Nat
  | 0, off => pure off
  | k + 1, off => do
    let size ← gets fun s => (s.din dp).size.toNat
    if off < size then
      let de ← readDirent p dp off "dirlink read"
      if de.inum = 0 then pure off else dirlinkSlot p dp k (off + DESIZE)
    else pure off

/-- `true` is the result `0`, `false` the result `-1`. -/
def dirlink (p : Pid) (dp : Fin NINODE) (name : List UInt8) (inum : Nat) : Prog State Bool := do
  match ← dirlookup p dp name with
  | some (ip, _) =>
    iput p ip
    pure false
  | none =>
    let size ← gets fun s => (s.din dp).size.toNat
    let off ← dirlinkSlot p dp (size + 1) 0
    let de : Dirent := ⟨UInt16.ofNat inum, padName name⟩
    let r ← writei p dp (.ofList de.encode) (UInt32.ofNat off) (UInt32.ofNat DESIZE)
    pure (r == some DESIZE)

/-- The loop of `isdirempty` from offset `off` on. -/
def isdiremptyFrom (p : Pid) (dp : Fin NINODE) : Nat → Nat → Prog State Bool
  | 0, _ => pure true
  | k + 1, off => do
    let size ← gets fun s => (s.din dp).size.toNat
    if off < size then
      let de ← readDirent p dp off "isdirempty: readi"
      if de.inum ≠ 0 then pure false else isdiremptyFrom p dp k (off + DESIZE)
    else pure true

def isdirempty (p : Pid) (dp : Fin NINODE) : Prog State Bool := do
  let size ← gets fun s => (s.din dp).size.toNat
  isdiremptyFrom p dp (size + 1) (2 * DESIZE)

/-! ## Paths -/

abbrev SLASH : UInt8 := 47
abbrev DOT : UInt8 := 46

/-- The next element of a path, cut off after `DIRSIZ - 1` bytes, and the rest of the path. -/
def skipelem (path : List UInt8) : Option (List UInt8 × List UInt8) :=
  let path := path.dropWhile (· == SLASH)
  if path = [] then none
  else
    some ((path.takeWhile (· != SLASH)).take (DIRSIZ - 1),
      (path.dropWhile (· != SLASH)).dropWhile (· == SLASH))

/-- The loop of `dnamex` at the inode `ip`. The result carries the last path element when the
parent is asked for. Each round takes an element off the path, so as many rounds as the path has
bytes are enough. -/
def dnamexFrom (p : Pid) (parent : Bool) :
    Nat → Fin NINODE → List UInt8 → Prog State (Option (Fin NINODE × List UInt8))
  | 0, ip, _ => do
    if parent then
      iput p ip
      pure none
    else pure (some (ip, []))
  | k + 1, ip, path => do
    match skipelem path with
    | none =>
      if parent then
        iput p ip
        pure none
      else pure (some (ip, []))
    | some (element, path) =>
      ilock p ip
      let type ← gets fun s => (s.din ip).type
      if type ≠ T_DIR then
        iunlockput p ip
        pure none
      else if parent ∧ path = [] then
        iunlock p ip
        pure (some (ip, element))
      else
        match ← dirlookup p ip element with
        | none =>
          iunlockput p ip
          pure none
        | some (next, _) =>
          iunlockput p ip
          dnamexFrom p parent k next path

def dnamex (p : Pid) (path : List UInt8) (parent : Bool) :
    Prog State (Option (Fin NINODE × List UInt8)) := do
  let ip ← iget ROOTINO
  dnamexFrom p parent (path.length + 1) ip path

def namei (p : Pid) (path : List UInt8) : Prog State (Option (Fin NINODE)) := do
  let r ← dnamex p path false
  pure (r.map Prod.fst)

def nameiparent (p : Pid) (path : List UInt8) : Prog State (Option (Fin NINODE × List UInt8)) :=
  dnamex p path true

/-! ## Removing a name -/

/-- Two unlocks and puts with the result `-1`. -/
def unlinkBad (p : Pid) (ip dp : Fin NINODE) : Prog State Bool := do
  iunlockput p ip
  iunlockput p dp
  pure false

def unlinkHelper (p : Pid) (path : List UInt8) : Prog State Bool := do
  match ← nameiparent p path with
  | none => pure false
  | some (dp, name) =>
    ilock p dp
    match ← dirlookup p dp name with
    | none =>
      iunlockput p dp
      pure false
    | some (ip, off) =>
      ilock p ip
      if nameEq name [DOT] ∨ nameEq name [DOT, DOT] then unlinkBad p ip dp
      else
        let type ← gets fun s => (s.din ip).type
        let empty ← if type = T_DIR then isdirempty p ip else pure true
        if empty then
          let r ← writei p dp (.ofList (List.replicate DESIZE 0)) (UInt32.ofNat off) (UInt32.ofNat DESIZE)
          if r = some DESIZE then
            modify fun s => s.modDin ip fun d => { d with nlink := d.nlink - 1 }
            iupdate p ip
            iunlockput p ip
            iunlockput p dp
            pure true
          else unlinkBad p ip dp
        else unlinkBad p ip dp

end Xv6.Fs
