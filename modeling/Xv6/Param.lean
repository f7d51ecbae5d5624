import Xv6.Data.Bytes

/-!
# Constants and block formats

The constants of `kernel/param.h`, `kernel/buf.h` and `kernel/fs.h`, and the superblock, which
the log and the file system read from block 1.
-/

namespace Xv6

open Data

abbrev MAXOPBLOCKS : Nat := 10
abbrev LOGSIZE : Nat := MAXOPBLOCKS * 3
abbrev NBUF : Nat := MAXOPBLOCKS * 3
abbrev NINODE : Nat := 50
abbrev NFILE : Nat := 100
abbrev NOFILE : Nat := 16
abbrev FSSIZE : Nat := 2000
abbrev ROOTDEV : Nat := 1
abbrev BSIZE : Nat := 1024
abbrev FSMAGIC : UInt32 := 0x10203040

abbrev Block := Bytes BSIZE

/-- The value of an `int` with the bit pattern of `n`. -/
def s32 (n : Nat) : Int := if n % 2 ^ 32 < 2 ^ 31 then (n % 2 ^ 32 : Nat) else (n % 2 ^ 32 : Nat) - 2 ^ 32

theorem s32_of_lt {n : Nat} (h : n < 2 ^ 31) : s32 n = n := by
  unfold s32
  rw [Nat.mod_eq_of_lt (by omega), if_pos h]

structure Superblock where
  magic : UInt32
  size : UInt32
  nblocks : UInt32
  ninodes : UInt32
  nlog : UInt32
  logstart : UInt32
  inodestart : UInt32
  bmapstart : UInt32
  deriving DecidableEq, Inhabited

/-- `struct superblock` at the beginning of a block. -/
def Superblock.decode (b : Block) : Superblock where
  magic := b.u32 0
  size := b.u32 4
  nblocks := b.u32 8
  ninodes := b.u32 12
  nlog := b.u32 16
  logstart := b.u32 20
  inodestart := b.u32 24
  bmapstart := b.u32 28

/-- The words of `struct superblock` in their order. -/
def Superblock.words (sb : Superblock) : List UInt32 :=
  [sb.magic, sb.size, sb.nblocks, sb.ninodes, sb.nlog, sb.logstart, sb.inodestart, sb.bmapstart]

/-- A zeroed block with the superblock copied to its beginning. -/
def Superblock.encode (sb : Superblock) : Block :=
  (Bytes.zero : Block).putWords 0 (fun k => sb.words.getD k 0) 8

theorem Superblock.decode_encode (sb : Superblock) : decode sb.encode = sb := by
  have hword : ∀ j, j < 8 → (sb.encode).u32 (4 * j) = sb.words.getD j 0 := by
    intro j hj
    have h := Bytes.u32_putWords (b := (Bytes.zero : Block)) (f := fun k => sb.words.getD k 0) hj
      (show 0 + 4 * 8 ≤ BSIZE by decide)
    rwa [Nat.zero_add] at h
  unfold decode
  rw [hword 0 (by decide), hword 1 (by decide), hword 2 (by decide), hword 3 (by decide),
    hword 4 (by decide), hword 5 (by decide), hword 6 (by decide), hword 7 (by decide)]
  rfl

/-- The superblock that `mkfs` writes: 30 log blocks, 13 inode blocks and one bitmap block before
the data blocks. -/
def mkfsSuperblock : Superblock where
  magic := FSMAGIC
  size := 2000
  nblocks := 1954
  ninodes := 200
  nlog := 30
  logstart := 2
  inodestart := 32
  bmapstart := 45

/-! ## Geometry -/

namespace Superblock

/-- The checks of `initlog`, without wrap-around, and a log size that is a positive `int`. -/
structure Valid (sb : Superblock) : Prop where
  magic : sb.magic = FSMAGIC
  nlog_pos : 0 < sb.nlog.toNat
  nlog_lt : sb.nlog.toNat < 2 ^ 31
  logstart_gt : 1 < sb.logstart.toNat
  log_le : sb.logstart.toNat + sb.nlog.toNat ≤ sb.size.toNat

def InLog (sb : Superblock) (b : Nat) : Prop :=
  sb.logstart.toNat ≤ b ∧ b < sb.logstart.toNat + sb.nlog.toNat

/-- The block is a home block that may be logged. -/
def Home (sb : Superblock) (b : Nat) : Prop :=
  sb.logstart.toNat + sb.nlog.toNat ≤ b ∧ b < sb.size.toNat

instance (sb : Superblock) (b : Nat) : Decidable (sb.InLog b) := inferInstanceAs (Decidable (_ ∧ _))

instance (sb : Superblock) (b : Nat) : Decidable (sb.Home b) := inferInstanceAs (Decidable (_ ∧ _))

theorem valid_mkfsSuperblock : mkfsSuperblock.Valid := by
  constructor <;> decide

end Superblock

end Xv6
