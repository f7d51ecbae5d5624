import Xv6.Fs.Guarantees

/-!
# A full inode cache

`iget` has no error result: when every entry of the inode cache is in use it panics. An entry is in use as
long as there is an open file, a current directory or a path walk for its inode. The cache has `NINODE`
entries, fewer than the `NFILE` entries of the file table, so a few processes with open files fill it.
-/

namespace Xv6.Fs

open Data Coop Prog Storage

instance (p : Pid) (c : Call) (s : State) : Decidable (machine.may p c s) :=
  match c with
  | .fork q => decidable_of_iff (s.alive p = true ∧ s.alive q = false)
      ⟨fun h => ⟨h.1, fun _ hq => Call.fork.inj hq ▸ h.2⟩, fun h => ⟨h.1, h.2 q rfl⟩⟩
  | .open .. | .read .. | .write .. | .close .. | .dup .. | .fstat .. | .mknod .. | .mkdir .. | .link .. | .unlink ..
  | .chdir .. | .exec .. | .exit =>
    decidable_of_iff (s.alive p = true) ⟨fun h => ⟨h, nofun⟩, And.left⟩

/-- The directory `self` below `parent`, with the entries `a` to `g` for the inodes from `first` on. -/
def listing (self parent first : Nat) : Block := fun i =>
  let k := i.val / 16
  match i.val % 16 with
  | 0 => if k = 0 then UInt8.ofNat self else if k = 1 then UInt8.ofNat parent
    else if k < 9 then UInt8.ofNat (first + (k - 2)) else 0
  | 2 => if k < 2 then DOT else if k < 9 then UInt8.ofNat (97 + (k - 2)) else 0
  | 3 => if k = 1 then DOT else 0
  | _ => 0

/-- The bytes of the inodes: 1 to 8 are directories of one block, 9 to 57 are empty files. -/
def inodeByte (inum offset : Nat) : UInt8 :=
  if inum = 0 ∨ 58 ≤ inum then 0
  else
    match offset with
    | 0 => if inum < 9 then 1 else 2
    | 6 => 1
    | 8 => if inum < 9 then 144 else 0
    | 12 => if inum < 9 then UInt8.ofNat (45 + inum) else 0
    | _ => 0

/-- The directories `/a` to `/g` with the files `a` to `g` in each of them. -/
def crowdedDisk (b : Nat) : Block :=
  if 32 ≤ b ∧ b < 36 then fun i => inodeByte (IPB * (b - 32) + i.val / 64) (i.val % 64)
  else if b = 45 then fun i => if i.val < 7 then 255 else 0
  else if b = 46 then listing 1 1 2
  else if 47 ≤ b ∧ b < 54 then listing (b - 45) 1 (9 + 7 * (b - 47))
  else Bytes.zero

def crowdedFs : State := { smallFs with disk := crowdedDisk }

theorem initial_crowdedFs : Initial crowdedFs :=
  ⟨rfl, rfl, rfl, fun _ => rfl, fun _ => rfl, fun _ _ => rfl, fun _ => rfl, rfl⟩

/-- The `k`-th path: the root directory, the directories in it and their files. -/
def pathOf (k : Nat) : List UInt8 :=
  if k = 0 then [SLASH]
  else if k < 8 then [SLASH, UInt8.ofNat (96 + k)]
  else [SLASH, UInt8.ofNat (97 + (k - 8) / 7), SLASH, UInt8.ofNat (97 + (k - 8) % 7)]

/-- The first process makes three others, and together they open all directories and forty-two files, each
of them at most `NOFILE`. -/
def openMany : List (Pid × (Int → Call)) :=
  [(1, fun _ => .fork 2), (1, fun _ => .fork 3), (1, fun _ => .fork 4)] ++
    (List.range NINODE).map fun k => (1 + k / NOFILE, fun _ => .open (pathOf k) O_RDONLY)

end Xv6.Fs
