import Xv6.Fs.State

/-!
# The image generator

`mkfs/mkfs.c`: the in-memory image, its block allocator, `iappend` and `dir_entry`, the tree that
`main` builds, and the image that it writes.

The allocator marks block `bmapstart + 1 + b` with bit `b`, while the bits of the metadata blocks
are those of their block numbers.
-/

namespace Xv6.Mkfs

open Data Fs Function

abbrev NLOG : Nat := 30
abbrev NINODES : Nat := 200
abbrev NBMAPBLOCKS : Nat := 1
abbrev logstart : Nat := 2
abbrev inodestart : Nat := logstart + NLOG
abbrev ninodeblocks : Nat := (NINODES + IPB - 1) / IPB
abbrev bmapstart : Nat := inodestart + ninodeblocks
abbrev nmeta : Nat := 2 + NLOG + ninodeblocks + NBMAPBLOCKS
abbrev nblocks : Nat := FSSIZE - nmeta

/-- `g_img`, `g_inodes` and `g_bbuf`. -/
structure State where
  img : Nat → Block
  inodes : Nat → Dinode
  bbuf : Block

namespace State

def setBlock (st : State) (b : Nat) (d : Block) : State :=
  { st with img := update st.img b d }

def modInode (st : State) (n : Nat) (f : Dinode → Dinode) : State :=
  { st with inodes := update st.inodes n (f (st.inodes n)) }

/-- `g_img[blk]`, the word at index `idx` counted from the beginning of block `blk`. -/
def wordAt (st : State) (blk idx : Nat) : Nat :=
  ((st.img (blk + idx / NINDIRECT)).u32 (4 * (idx % NINDIRECT))).toNat

def setWord (st : State) (blk idx v : Nat) : State :=
  st.setBlock (blk + idx / NINDIRECT)
    ((st.img (blk + idx / NINDIRECT)).putU32 (4 * (idx % NINDIRECT)) (UInt32.ofNat v))

end State

/-- The bits `0` to `k - 1` set. -/
def marked : Nat → Block
  | 0 => Bytes.zero
  | k + 1 => (marked k).setBit k

/-- The superblock written and the metadata blocks marked. -/
def initial : State where
  img := update (fun _ => Bytes.zero) 1 mkfsSuperblock.encode
  inodes := fun _ => {}
  bbuf := marked nmeta

/-- The block number is `0` in the source when there is none. -/
def balloc (st : State) : Option (Nat × State) :=
  match (List.range nblocks).find? fun b => !st.bbuf.bit b with
  | some b => some (bmapstart + 1 + b, { st with bbuf := st.bbuf.setBit b })
  | none => none

/-- `balloc`, or `fatal` with the message. -/
def ballocOr (msg : String) (st : State) : Except String (Nat × State) :=
  match balloc st with
  | some r => .ok r
  | none => .error msg

/-- `a[idx]` of the indirect block `ind`, which is allocated when it is zero. -/
def entryFor (ind idx : Nat) (st : State) : Except String (Nat × State) := do
  if st.wordAt ind idx = 0 then
    let (d, st) ← ballocOr "out of indirect data blocks" st
    pure (d, st.setWord ind idx d)
  else pure (st.wordAt ind idx, st)

/-- The indirect block of an inode, which is allocated and cleared when there is none. -/
def indirectFor (inum : Nat) (st : State) : Except String State := do
  if (st.inodes inum).addr NDIRECT = 0 then
    let (ind, st) ← ballocOr "out of indirect block" st
    pure ((st.modInode inum fun d => d.setAddr NDIRECT ind).setBlock ind Bytes.zero)
  else pure st

/-- The part of `iappend` that finds the block with index `blockidx`, and allocates it. -/
def blockFor (inum blockidx : Nat) (st : State) : Except String (Nat × State) := do
  if blockidx < NDIRECT then
    if (st.inodes inum).addr blockidx = 0 then
      let (addr, st) ← ballocOr "out of direct data blocks" st
      pure (addr, st.modInode inum fun d => d.setAddr blockidx addr)
    else pure ((st.inodes inum).addr blockidx, st)
  else
    let st ← indirectFor inum st
    entryFor ((st.inodes inum).addr NDIRECT) (blockidx - NDIRECT) st

/-- The loop of `iappend`. Each round writes at least one byte, so as many rounds as there are bytes
are enough. -/
def appendLoop (inum : Nat) : Nat → Nat → List UInt8 → State → Except String (Nat × State)
  | 0, off, _, st => pure (off, st)
  | k + 1, off, p, st => do
    if p = [] then pure (off, st)
    else
      let chunk := min p.length (BSIZE - off % BSIZE)
      let (addr, st) ← blockFor inum (off / BSIZE) st
      appendLoop inum k (off + chunk) (p.drop chunk)
        (st.setBlock addr ((st.img addr).blit (off % BSIZE) (p.take chunk)))

def iappend (inum : Nat) (data : List UInt8) (st : State) : Except String State := do
  let (off, st) ← appendLoop inum data.length (st.inodes inum).size.toNat data st
  pure (st.modInode inum fun d => { d with size := UInt32.ofNat off })

/-- The bytes of the entry that `dir_entry` appends. -/
def direntBytes (name : List UInt8) (inum : Nat) : List UInt8 :=
  Dirent.encode ⟨UInt16.ofNat inum, padName (name.take (DIRSIZ - 1))⟩

def dirEntry (dir : Nat) (name : List UInt8) (inum : Nat) (st : State) : Except String State :=
  iappend dir (direntBytes name inum) st

/-! ## The tree and the image -/

/-- The bytes of a string literal. -/
def ascii (s : String) : List UInt8 := s.toList.map fun c => UInt8.ofNat c.toNat

/-- The fields that `main` sets in a new inode. -/
def State.newInode (st : State) (n : Nat) (type nlink : UInt16) : State :=
  st.modInode n fun d => { d with type := type, nlink := nlink, size := 0 }

/-- The inodes and names that `main` makes. -/
def tree : Except String State := do
  let st := initial.newInode ROOTINO T_DIR 3
  let st ← dirEntry ROOTINO (ascii ".") ROOTINO st
  let st ← dirEntry ROOTINO (ascii "..") ROOTINO st
  let st ← iappend 2 (ascii "kernel/inode deterministic root image\n") (st.newInode 2 T_FILE 1)
  let st ← dirEntry ROOTINO (ascii "README") 2 st
  let st ← dirEntry ROOTINO (ascii "test") 3 (st.newInode 3 T_DIR 2)
  let st ← dirEntry 3 (ascii ".") 3 st
  let st ← dirEntry 3 (ascii "..") ROOTINO st
  let st ← iappend 4 (ascii "t1 hello\n") (st.newInode 4 T_FILE 1)
  dirEntry 3 (ascii "t1") 4 st

/-- Copy `n` inodes from number `k` on to the inode region. -/
def writeInodes (inodes : Nat → Dinode) : Nat → Nat → (Nat → Block) → Nat → Block
  | 0, _, img => img
  | n + 1, k, img =>
    writeInodes inodes n (k + 1)
      (update img (inodestart + k / IPB)
        ((inodes k).write (img (inodestart + k / IPB)) (k % IPB)))

def State.emit (st : State) : Nat → Block :=
  update (writeInodes st.inodes NINODES 0 st.img) bmapstart st.bbuf

end Xv6.Mkfs
