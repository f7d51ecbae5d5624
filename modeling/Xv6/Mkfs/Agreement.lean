import Xv6.Mkfs.Bitmap
import Xv6.Coop.Sequential

/-!
# The image and the kernel's allocator

The kernel reads bit `b` of the bitmap as the bit of block `b`. An image in which every block that
an inode reaches has its bit is one from which `balloc_alloc` never gives out a block in use.

The images of `mkfs` are of this kind only as long as nothing has been appended to any inode: the
block that was allocated last never has its bit.
-/

namespace Xv6.Mkfs

open Data Fs Coop Prog Function

/-! ## What the kernel reads -/

theorem writeInodes_of_ne {inodes : Nat → Dinode} {b : Nat} : ∀ {n k : Nat} {img : Nat → Block},
    (∀ j, j < k + n → inodestart + j / IPB ≠ b) → writeInodes inodes n k img b = img b := by
  intro n
  induction n with
  | zero => intro k img _; rfl
  | succ n ih =>
    intro k img h
    rw [writeInodes, ih (fun j hj => h j (by omega)),
      update_of_ne (Ne.symm (h k (by omega)))]

/-- The copied inodes are found where the kernel looks for them. -/
theorem dinodeAt_writeInodes {inodes : Nat → Dinode} {x : Nat} :
    ∀ {n k : Nat} {img : Nat → Block},
      dinodeAt mkfsSuperblock (writeInodes inodes n k img) x =
        if k ≤ x ∧ x < k + n then inodes x else dinodeAt mkfsSuperblock img x := by
  intro n
  induction n with
  | zero => intro k img; rw [if_neg (by omega)]; rfl
  | succ n ih =>
    intro k img
    rw [writeInodes, ih]
    have hstart : ∀ j, inodeBlock mkfsSuperblock j = inodestart + j / IPB := fun j => rfl
    by_cases hx : k + 1 ≤ x ∧ x < k + 1 + n
    · rw [if_pos hx, if_pos (by omega)]
    · rw [if_neg hx]
      by_cases hxk : x = k
      · subst hxk
        rw [if_pos (by omega), dinodeAt, hstart, update_self,
          Dinode.read_write_self (Nat.mod_lt _ (by decide))]
      · rw [if_neg (by omega), dinodeAt, dinodeAt, hstart]
        by_cases hb : inodestart + x / IPB = inodestart + k / IPB
        · rw [hb, update_self, Dinode.read_write_of_ne (by lia)]
        · rw [update_of_ne hb]

theorem dinodeAt_emit {st : State} {n : Nat} (hn : n < NINODES) :
    dinodeAt mkfsSuperblock st.emit n = st.inodes n := by
  have hne : inodeBlock mkfsSuperblock n ≠ bmapstart := by
    show inodestart + n / IPB ≠ bmapstart
    lia
  rw [dinodeAt, State.emit, update_of_ne hne]
  have h := @dinodeAt_writeInodes st.inodes n NINODES 0 st.img
  rw [if_pos (by omega)] at h
  exact h

theorem emit_bitmap (st : State) : st.emit bmapstart = st.bbuf := update_self _ _ _

theorem emit_data {st : State} {b : Nat} (hb : bmapstart < b) : st.emit b = st.img b := by
  rw [State.emit, update_of_ne (by omega), writeInodes_of_ne]
  intro j hj
  lia

/-- The `m`-th pointer of inode `n` of an image. -/
def imagePtr (disk : Nat → Block) (n m : Nat) : Nat := ptr disk (dinodeAt mkfsSuperblock disk n) m

theorem imagePtr_emit {k : Nat} {st : State} (h : Laid k st) {n : Nat} (hn : n < NINODES) (m : Nat) :
    imagePtr st.emit n m = st.ptr n m := by
  unfold imagePtr
  rw [dinodeAt_emit hn]
  apply Fs.ptr_congr (fun _ => rfl)
  intro h0
  have hp : st.ptr n NDIRECT = (st.inodes n).addr NDIRECT := Fs.ptr_direct (Nat.le_refl _)
  have := (h.range n NDIRECT (by rwa [hp])).1
  rw [hp] at this
  exact emit_data (by lia)

/-! ## The kernel's allocator on a mounted image -/

/-- The kernel with the image mounted and an empty log. -/
def mounted (disk : Nat → Block) : Fs.State where
  sb := mkfsSuperblock
  disk := disk
  log := { start := logstart, size := NLOG, dev := ROOTDEV }
  icache := fun _ => {}
  ftable := fun _ => {}
  ofile := fun _ _ => none

/-- One allocation in a transaction of its own, by the first process. -/
def allocation : Prog Fs.State Nat := do
  beginOp 1
  let b ← ballocAlloc 1
  endOp 1
  pure b

/-- The results of `k` allocations. -/
def allocations : Nat → Prog Fs.State (List Nat)
  | 0 => pure []
  | k + 1 => do
    let b ← allocation
    let bs ← allocations k
    pure (b :: bs)

/-- The blocks that an inode of the image reaches. -/
def Used (disk : Nat → Block) (b : Nat) : Prop := b ≠ 0 ∧ ∃ n m, n < NINODES ∧ imagePtr disk n m = b

/-- Every block in use has its bit, and the kernel never allocates it. -/
structure Agrees (disk : Nat → Block) : Prop where
  marked : ∀ b, Used disk b → (disk bmapstart).bit b = true
  fresh : ∀ k bs s, (allocations k).run (mounted disk) = .done bs s → ∀ b ∈ bs, ¬ Used disk b

/-- The state after one byte was appended to inode 2. -/
def oneByte : State :=
  (({ initial with bbuf := initial.bbuf.setBit nmeta }.modInode 2 fun d =>
    d.setAddr 0 firstData).setBlock firstData (Bytes.blit (initial.img firstData) 0 [7])).modInode 2
      fun d => { d with size := 1 }

set_option maxRecDepth 20000 in
theorem runCalls_oneByte : runCalls [.iappend 2 [7]] initial = .ok oneByte := by
  rfl

/-- The two allocators agree as long as nothing is appended. When no file outgrows `MAXFILE` blocks
they agree only then. -/
theorem agrees_iff_nothing_appended (cs : List Call) (st : State)
    (hrun : runCalls cs initial = .ok st) :
    (Idle cs → Agrees st.emit) ∧
      ((∀ n, appendedTo n cs ≤ MAXFILE * BSIZE) → Agrees st.emit → Idle cs) := by
  constructor
  · intro hidle
    have hunused : ∀ b, ¬ Used st.emit b := by
      intro b ⟨hb, n, m, hn, hp⟩
      have h0 := runCalls_idle hidle ptr_initial hrun
      have hind : (st.inodes n).addr NDIRECT = 0 := by
        have := h0 n NDIRECT
        rwa [State.ptr, Fs.ptr_direct (Nat.le_refl _)] at this
      apply hb
      rw [← hp, imagePtr, dinodeAt_emit hn, ← h0 n m]
      exact Fs.ptr_congr (fun _ => rfl) (fun h => absurd hind h) m
    exact ⟨fun b hb => absurd hb (hunused b), fun _ _ _ _ b _ => hunused b⟩
  · intro hfit hagree
    have hstart : ∀ n, (initial.inodes n).size.toNat + appendedTo n cs ≤ MAXFILE * BSIZE := by
      intro n
      show 0 + _ ≤ _
      rw [Nat.zero_add]
      exact hfit n
    obtain ⟨k, -, hpos, hl⟩ := runCalls_laid laid_initial hstart hrun
    by_contra hne
    obtain ⟨n, m, hn, hm⟩ := hl.last (hpos hne)
    -- the last block is beyond the last bit
    have hset := hagree.marked (st.ptr n m) ⟨by lia, n, m, hn, imagePtr_emit hl hn m⟩
    rw [emit_bitmap, hl.bits, decide_eq_true_iff] at hset
    lia

theorem nothing_appended_oneByte :
    runCalls [.iappend 2 [7]] initial = .ok oneByte ∧
      (Agrees oneByte.emit → Idle [.iappend 2 [7]]) := by
  refine ⟨runCalls_oneByte, (agrees_iff_nothing_appended _ _ runCalls_oneByte).2 ?_⟩
  intro n
  simp only [appendedTo, Call.bytes]
  split <;> decide

/-- After one byte was appended to inode 2 the image uses block 92, whose bit is clear, and the
forty-sixth allocation of the kernel returns it. -/
theorem image_block_reallocated :
    ∃ st, runCalls [.iappend 2 [7]] initial = .ok st ∧ Used st.emit 92 ∧
      (st.emit bmapstart).bit 92 = false ∧
      ∃ bs s, (allocations 46).run (mounted st.emit) = .done bs s ∧ 92 ∈ bs := by
  have htest : decide (imagePtr oneByte.emit 2 0 = 92 ∧ (oneByte.emit bmapstart).bit 92 = false) &&
      ((allocations 46).run (mounted oneByte.emit)).returned (fun bs _ => decide (92 ∈ bs)) = true := by decide +kernel
  simp only [Bool.and_eq_true, decide_eq_true_eq] at htest
  obtain ⟨⟨hptr, hbit⟩, htest⟩ := htest
  obtain ⟨bs, s, hrun, hmem⟩ := Outcome.exists_done_of_returned htest
  exact ⟨oneByte, runCalls_oneByte, ⟨by decide, 2, 0, by decide, hptr⟩, hbit, bs, s, hrun, of_decide_eq_true hmem⟩

end Xv6.Mkfs
