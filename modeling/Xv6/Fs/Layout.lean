import Xv6.Param

/-!
# Inodes and directory entries on disk

The on-disk structures of `kernel/fs.h` that the kernel and `mkfs` share: `struct dinode`, which
is stored sixteen to a block in the inode region, `struct dirent`, and the pointers by which an
inode reaches its blocks.

The pointers of an inode are numbered in one sequence: the direct addresses are the pointers
`0` to `11`, the address of the indirect block is the pointer `12`, and the entries of the
indirect block are the pointers `13` to `268`.
-/

namespace Xv6.Fs

open Data

abbrev NDIRECT : Nat := 12

instance (priority := high) neZero_NDIRECT : NeZero (NDIRECT + 1) := ⟨by decide⟩

abbrev NINDIRECT : Nat := 256
abbrev MAXFILE : Nat := NDIRECT + NINDIRECT
abbrev DIRSIZ : Nat := 14
abbrev MAXPATH : Nat := 128
abbrev IPB : Nat := 16
abbrev BPB : Nat := BSIZE * 8
abbrev ROOTINO : Nat := 1

abbrev NPTR : Nat := NDIRECT + 1 + NINDIRECT

abbrev T_DIR : UInt16 := 1
abbrev T_FILE : UInt16 := 2
abbrev T_DEVICE : UInt16 := 3

/-! ## Inodes -/

/-- `struct dinode`. A `short` is kept as its bit pattern. -/
@[ext] structure Dinode where
  type : UInt16 := 0
  major : UInt16 := 0
  minor : UInt16 := 0
  nlink : UInt16 := 0
  size : UInt32 := 0
  addrs : Fin (NDIRECT + 1) → UInt32 := fun _ => 0

variable {d : Dinode} {k v m : Nat} {disk : Nat → Block}

namespace Dinode

/-- `addrs[k]`. -/
def word (d : Dinode) (k : Nat) : UInt32 := if h : k < NDIRECT + 1 then d.addrs ⟨k, h⟩ else 0

/-- `addrs[k]` as a block number. -/
def addr (d : Dinode) (k : Nat) : Nat := (d.word k).toNat

/-- `addrs[k] = v`. -/
def setAddr (d : Dinode) (k : Nat) (v : Nat) : Dinode :=
  { d with addrs := fun j => if j.val = k then UInt32.ofNat v else d.addrs j }

@[simp] theorem setAddr_type (d : Dinode) (k v : Nat) : (d.setAddr k v).type = d.type := rfl

@[simp] theorem setAddr_nlink (d : Dinode) (k v : Nat) : (d.setAddr k v).nlink = d.nlink := rfl

@[simp] theorem setAddr_size (d : Dinode) (k v : Nat) : (d.setAddr k v).size = d.size := rfl

theorem addr_setAddr_self (hk : k < NDIRECT + 1) (hv : v < 2 ^ 32) : (d.setAddr k v).addr k = v := by
  unfold addr word setAddr
  rw [dif_pos hk]
  simpa using hv

theorem addr_setAddr_of_ne {j : Nat} (h : j ≠ k) : (d.setAddr k v).addr j = d.addr j := by
  unfold addr word setAddr
  by_cases hj : j < NDIRECT + 1
  · rw [dif_pos hj, dif_pos hj]
    simp [h]
  · rw [dif_neg hj, dif_neg hj]

/-- The `k`-th inode of a block of the inode region. -/
def read (b : Block) (k : Nat) : Dinode where
  type := b.u16 (64 * k)
  major := b.u16 (64 * k + 2)
  minor := b.u16 (64 * k + 4)
  nlink := b.u16 (64 * k + 6)
  size := b.u32 (64 * k + 8)
  addrs j := b.u32 (64 * k + 12 + 4 * j)

/-- Store an inode as the `k`-th of its block. -/
def write (d : Dinode) (b : Block) (k : Nat) : Block :=
  (((((b.putU16 (64 * k) d.type).putU16 (64 * k + 2) d.major).putU16 (64 * k + 4) d.minor).putU16
    (64 * k + 6) d.nlink).putU32 (64 * k + 8) d.size).putWords (64 * k + 12) d.word (NDIRECT + 1)

variable {b : Block}

theorem read_write_self (hk : k < IPB) : read (d.write b k) k = d := by
  unfold write
  refine Dinode.ext ?_ ?_ ?_ ?_ ?_ (funext fun j => ?_)
  · show Bytes.u16 _ (64 * k) = _
    rw [Bytes.u16_putWords_of_disjoint (by lia), Bytes.u16_putU32 (by lia),
      Bytes.u16_putU16 (by lia), Bytes.u16_putU16 (by lia), Bytes.u16_putU16 (by lia),
      Bytes.u16_putU16_self (by lia)]
  · show Bytes.u16 _ (64 * k + 2) = _
    rw [Bytes.u16_putWords_of_disjoint (by lia), Bytes.u16_putU32 (by lia),
      Bytes.u16_putU16 (by lia), Bytes.u16_putU16 (by lia), Bytes.u16_putU16_self (by lia)]
  · show Bytes.u16 _ (64 * k + 4) = _
    rw [Bytes.u16_putWords_of_disjoint (by lia), Bytes.u16_putU32 (by lia),
      Bytes.u16_putU16 (by lia), Bytes.u16_putU16_self (by lia)]
  · show Bytes.u16 _ (64 * k + 6) = _
    rw [Bytes.u16_putWords_of_disjoint (by lia), Bytes.u16_putU32 (by lia),
      Bytes.u16_putU16_self (by lia)]
  · show Bytes.u32 _ (64 * k + 8) = _
    rw [Bytes.u32_putWords_of_disjoint (by lia), Bytes.u32_putU32_self (by lia)]
  · show Bytes.u32 _ (64 * k + 12 + 4 * j.val) = _
    rw [Bytes.u32_putWords j.isLt (by lia), word, dif_pos j.isLt]

theorem get_write {i : Nat} (h : i < 64 * k ∨ 64 * k + 64 ≤ i) : (d.write b k).get i = b.get i := by
  unfold write
  rw [Bytes.get_putWords (by lia), Bytes.get_putU32 (by lia), Bytes.get_putU16 (by lia),
    Bytes.get_putU16 (by lia), Bytes.get_putU16 (by lia), Bytes.get_putU16 (by lia)]

theorem read_congr {a : Block} (h : ∀ i, 64 * k ≤ i → i < 64 * k + 64 → a.get i = b.get i) : read a k = read b k := by
  have h16 : ∀ o, 64 * k ≤ o → o + 2 ≤ 64 * k + 64 → a.u16 o = b.u16 o :=
    fun o _ _ => Bytes.u16_congr fun i _ _ => h i (by lia) (by lia)
  have h32 : ∀ o, 64 * k ≤ o → o + 4 ≤ 64 * k + 64 → a.u32 o = b.u32 o :=
    fun o _ _ => Bytes.u32_congr fun i _ _ => h i (by lia) (by lia)
  exact Dinode.ext (h16 _ (by lia) (by lia)) (h16 _ (by lia) (by lia)) (h16 _ (by lia) (by lia))
    (h16 _ (by lia) (by lia)) (h32 _ (by lia) (by lia))
    (funext fun j => h32 _ (by lia) (by have := j.isLt; lia))

theorem read_write_of_ne {j : Nat} (h : j ≠ k) : read (d.write b k) j = read b j :=
  read_congr fun _ _ _ => get_write (by lia)

end Dinode

/-- The block of the inode region that holds inode `n`. -/
def inodeBlock (sb : Superblock) (n : Nat) : Nat := sb.inodestart.toNat + n / IPB

/-- Inode `n` on the disk. -/
def dinodeAt (sb : Superblock) (disk : Nat → Block) (n : Nat) : Dinode :=
  Dinode.read (disk (inodeBlock sb n)) (n % IPB)

/-! ## The pointers of an inode -/

/-- The `m`-th pointer of an inode; zero when there is none. -/
def ptr (disk : Nat → Block) (d : Dinode) (m : Nat) : Nat :=
  if m ≤ NDIRECT then d.addr m
  else if d.addr NDIRECT = 0 then 0
  else if m < NPTR then ((disk (d.addr NDIRECT)).u32 (4 * (m - (NDIRECT + 1)))).toNat
  else 0

/-- The number of the pointer to block `bn` of a file. -/
def ptrOf (bn : Nat) : Nat := if bn < NDIRECT then bn else bn + 1

theorem ptr_direct (h : m ≤ NDIRECT) :
    ptr disk d m = d.addr m := if_pos h

theorem ptr_entry (h : NDIRECT < m) (hm : m < NPTR) (ha : d.addr NDIRECT ≠ 0) :
    ptr disk d m = ((disk (d.addr NDIRECT)).u32 (4 * (m - (NDIRECT + 1)))).toNat := by
  unfold ptr
  rw [if_neg (by omega), if_neg ha, if_pos hm]

theorem ptr_of_addr_eq_zero (h : NDIRECT < m) (ha : d.addr NDIRECT = 0) : ptr disk d m = 0 := by
  unfold ptr
  rw [if_neg (by omega), if_pos ha]

theorem ptr_of_le (h : NPTR ≤ m) : ptr disk d m = 0 := by
  unfold ptr
  rw [if_neg (by lia), if_neg (by lia : ¬ m < NPTR), ite_self]

/-- The pointers depend on the addresses and on the contents of the indirect block. -/
theorem ptr_congr {disk' : Nat → Block} {d' : Dinode} (ha : ∀ k, d'.addr k = d.addr k)
    (hind : d.addr NDIRECT ≠ 0 → disk' (d.addr NDIRECT) = disk (d.addr NDIRECT)) (m : Nat) :
    ptr disk' d' m = ptr disk d m := by
  unfold ptr
  rw [ha, ha]
  by_cases h0 : d.addr NDIRECT = 0
  · rw [if_pos h0, if_pos h0]
  · rw [if_neg h0, if_neg h0, hind h0]

/-- A new direct address changes one pointer. -/
theorem ptr_setAddr_direct (hk : k < NDIRECT) (hv : v < 2 ^ 32) (m : Nat) :
    ptr disk (d.setAddr k v) m = if m = k then v else ptr disk d m := by
  by_cases hmk : m = k
  · subst hmk
    rw [if_pos rfl, ptr_direct (by lia), Dinode.addr_setAddr_self (by lia) hv]
  · rw [if_neg hmk]
    unfold ptr
    rw [Dinode.addr_setAddr_of_ne hmk, Dinode.addr_setAddr_of_ne (by lia)]

/-- A new indirect block full of zeros changes one pointer. -/
theorem ptr_setAddr_indirect (h0 : d.addr NDIRECT = 0) (hv : v < 2 ^ 32) (hz : disk v = Bytes.zero) (m : Nat) :
    ptr disk (d.setAddr NDIRECT v) m = if m = NDIRECT then v else ptr disk d m := by
  by_cases hm : m ≤ NDIRECT
  · rw [ptr_direct hm, ptr_direct hm]
    by_cases hmk : m = NDIRECT
    · rw [if_pos hmk, hmk, Dinode.addr_setAddr_self (by lia) hv]
    · rw [if_neg hmk, Dinode.addr_setAddr_of_ne hmk]
  · rw [if_neg (by lia), ptr_of_addr_eq_zero (by lia) h0]
    unfold ptr
    rw [if_neg hm, Dinode.addr_setAddr_self (by lia) hv, hz]
    simp

/-- A new entry of the indirect block changes one pointer. -/
theorem ptr_setEntry (hk : NDIRECT < k) (hkn : k < NPTR) (ha : d.addr NDIRECT ≠ 0) (hv : v < 2 ^ 32) (m : Nat) :
    ptr (Function.update disk (d.addr NDIRECT)
      ((disk (d.addr NDIRECT)).putU32 (4 * (k - (NDIRECT + 1))) (UInt32.ofNat v))) d m =
      if m = k then v else ptr disk d m := by
  by_cases hm : m ≤ NDIRECT
  · rw [ptr_direct hm, ptr_direct hm, if_neg (by lia)]
  by_cases hmn : m < NPTR
  · rw [ptr_entry (by lia) hmn ha, ptr_entry (by lia) hmn ha, Function.update_self]
    by_cases hmk : m = k
    · rw [if_pos hmk, hmk, Bytes.u32_putU32_self (by lia)]
      simpa using hv
    · rw [if_neg hmk, Bytes.u32_putU32 (by lia)]
  · rw [ptr_of_le (by lia), ptr_of_le (by lia), if_neg (by lia)]

/-! ## Directory entries -/

/-- `struct dirent`, with the fourteen bytes of its name. -/
structure Dirent where
  inum : UInt16
  name : List UInt8
  deriving DecidableEq

namespace Dirent

/-- The entry with the given sixteen bytes. -/
def decode (l : List UInt8) : Dirent := ⟨UInt16.ofNat (Bytes.le (l.take 2)), l.drop 2⟩

def encode (e : Dirent) : List UInt8 := Bytes.leBytes 2 e.inum.toNat ++ e.name

theorem decode_encode (e : Dirent) : decode e.encode = e := by
  have h : Bytes.le (Bytes.leBytes 2 e.inum.toNat) = e.inum.toNat := by
    rw [Bytes.le_leBytes]
    exact Nat.mod_eq_of_lt e.inum.toNat_lt
  have htake : e.encode.take 2 = Bytes.leBytes 2 e.inum.toNat := by
    rw [encode, List.take_left' (Bytes.length_leBytes _ _)]
  have hdrop : e.encode.drop 2 = e.name := by
    rw [encode, List.drop_left' (Bytes.length_leBytes _ _)]
  rw [decode, htake, hdrop, h]
  simp

end Dirent

/-- `strncpy(de.name, name, DIRSIZ)`: the name cut off and padded with zero bytes. -/
def padName (name : List UInt8) : List UInt8 :=
  name.take DIRSIZ ++ List.replicate (DIRSIZ - name.length) 0

@[simp] theorem length_padName (name : List UInt8) : (padName name).length = DIRSIZ := by
  simp [padName]
  omega

/-- The part of a name that `strncmp(s, t, DIRSIZ)` compares. -/
def cname (l : List UInt8) : List UInt8 := (l.take DIRSIZ).takeWhile (· != 0)

/-- `namecmp(s, t) == 0`. -/
def nameEq (s t : List UInt8) : Bool := cname s == cname t

end Xv6.Fs
