import Xv6.Storage.Log
import Mathlib.Data.List.GetD

/-!
# The log on the disk

`Recoverable sb disk committed` relates the contents of the disk to the home blocks after the
committed transactions: the blocks that the on-disk header names are in the log slots, and
all others are in place. Each kind of block write of a commit keeps the relation; the one that
writes a nonempty header moves `committed` forward.
-/

namespace Xv6.Storage

open Data Coop Prog Function

/-! ## The header block -/

theorem length_headBlocks (b : Block) : (headBlocks b).length = headCount b := by
  simp [headBlocks]

variable {k : Nat} {lh : List Nat}

theorem getD_headBlocks {b : Block} (hk : k < headCount b) : (headBlocks b).getD k 0 = headBlock b k := by
  simp [headBlocks, hk]

theorem headBlock_mem {b : Block} (hk : k < headCount b) : headBlock b k ∈ headBlocks b :=
  List.mem_map.mpr ⟨k, List.mem_range.mpr hk, rfl⟩

theorem headCount_encodeHead {b : Block} (hlen : lh.length ≤ LOGSIZE) : headCount (encodeHead b lh) = lh.length := by
  unfold headCount encodeHead
  rw [Bytes.u32_putWords_of_disjoint (by omega), Bytes.u32_putU32_self (by decide)]
  have hlt : lh.length < 2 ^ 32 := lt_of_le_of_lt hlen (by decide)
  rw [UInt32.toNat_ofNat', Nat.mod_eq_of_lt hlt]

theorem headBlock_encodeHead {b : Block} (hlen : lh.length ≤ LOGSIZE)
    (hlt : ∀ a ∈ lh, a < 2 ^ 32) (hk : k < lh.length) :
    headBlock (encodeHead b lh) k = lh.getD k 0 := by
  unfold headBlock encodeHead
  rw [Bytes.u32_putWords hk (by have : lh.length ≤ 30 := hlen; change 4 + 4 * lh.length ≤ 1024; omega)]
  have hmem : lh.getD k 0 ∈ lh := by
    rw [List.getD_eq_getElem _ _ hk]
    exact List.getElem_mem hk
  have := hlt _ hmem
  simp only [UInt32.toNat_ofNat']
  omega

theorem headBlocks_encodeHead {b : Block} (hlen : lh.length ≤ LOGSIZE)
    (hlt : ∀ a ∈ lh, a < 2 ^ 32) : headBlocks (encodeHead b lh) = lh := by
  refine List.ext_getElem ?_ ?_
  · rw [length_headBlocks, headCount_encodeHead hlen]
  · intro k hk hk'
    simp only [headBlocks, List.getElem_map, List.getElem_range]
    rw [headBlock_encodeHead hlen hlt hk', List.getD_eq_getElem _ _ hk']

/-! ## Recoverable disks -/

structure Recoverable (sb : Superblock) (disk committed : Nat → Block) : Prop where
  super : Superblock.decode (disk 1) = sb
  count_le : headCount (disk sb.logstart.toNat) ≤ LOGSIZE
  count_lt : headCount (disk sb.logstart.toNat) < sb.nlog.toNat
  nodup : (headBlocks (disk sb.logstart.toNat)).Nodup
  home : ∀ b ∈ headBlocks (disk sb.logstart.toNat), sb.Home b
  kept : ∀ b, ¬ sb.InLog b → b ∉ headBlocks (disk sb.logstart.toNat) → disk b = committed b
  slot : ∀ k, k < headCount (disk sb.logstart.toNat) →
    disk (sb.logstart.toNat + k + 1) = committed (headBlock (disk sb.logstart.toNat) k)

namespace Recoverable

variable {sb : Superblock} {disk committed : Nat → Block} {b : Nat} {d : Block}

theorem ne_logstart_of_home (h : sb.Home b) (hv : sb.Valid) : b ≠ sb.logstart.toNat := by
  have := hv.nlog_pos
  have := h.1
  omega

theorem not_inLog_of_home (h : sb.Home b) : ¬ sb.InLog b := by
  have h1 := h.1
  rintro ⟨-, h2⟩
  omega

theorem one_not_home (hv : sb.Valid) : ¬ sb.Home 1 := by
  have := hv.logstart_gt
  rintro ⟨h, -⟩
  omega

section

variable (h : Recoverable sb disk committed)
include h

theorem headBlock_home (hk : k < headCount (disk sb.logstart.toNat)) :
    sb.Home (headBlock (disk sb.logstart.toNat) k) :=
  h.home _ (headBlock_mem hk)

/-- With an empty header every block outside the log is in place. -/
theorem disk_eq (h0 : headCount (disk sb.logstart.toNat) = 0) (hb : ¬ sb.InLog b) : disk b = committed b := by
  refine h.kept b hb ?_
  simp [headBlocks, h0]

/-- While the header is empty the log slots are free. -/
theorem write_slot (hv : sb.Valid) (h0 : headCount (disk sb.logstart.toNat) = 0) (hb : sb.InLog b)
    (hne : b ≠ sb.logstart.toNat) : Recoverable sb (update disk b d) committed := by
  have hstart : update disk b d sb.logstart.toNat = disk sb.logstart.toNat :=
    update_of_ne (Ne.symm hne) d disk
  have hone : b ≠ 1 := by
    have := hv.logstart_gt
    have := hb.1
    omega
  refine ⟨?_, ?_, ?_, ?_, ?_, ?_, ?_⟩
  · rw [update_of_ne (Ne.symm hone)]
    exact h.super
  · rw [hstart]
    exact h.count_le
  · rw [hstart]
    exact h.count_lt
  · rw [hstart]
    exact h.nodup
  · rw [hstart]
    exact h.home
  · intro a ha hmem
    have hab : a ≠ b := by
      rintro rfl
      exact ha hb
    rw [hstart] at hmem
    rw [update_of_ne hab]
    exact h.kept a ha hmem
  · intro k hk
    rw [hstart, h0] at hk
    exact absurd hk (Nat.not_lt_zero k)

/-- The commit point: the header that names the blocks whose new contents are in the slots. -/
theorem write_head (hv : sb.Valid) (h0 : headCount (disk sb.logstart.toNat) = 0) (hlen : lh.length ≤ LOGSIZE)
    (hlt : lh.length < sb.nlog.toNat) (hnodup : lh.Nodup) (hhome : ∀ a ∈ lh, sb.Home a)
    {cur : Nat → Block}
    (hslot : ∀ k, k < lh.length → disk (sb.logstart.toNat + k + 1) = cur (lh.getD k 0)) :
    Recoverable sb (update disk sb.logstart.toNat (encodeHead d lh))
      (fun a => if a ∈ lh then cur a else committed a) := by
  have hsmall : ∀ a ∈ lh, a < 2 ^ 32 := by
    intro a ha
    exact lt_trans (hhome a ha).2 sb.size.toNat_lt
  have hcount := headCount_encodeHead (b := d) hlen
  have hblocks := headBlocks_encodeHead (b := d) hlen hsmall
  have hone : (1 : Nat) ≠ sb.logstart.toNat := by
    have := hv.logstart_gt
    omega
  refine ⟨?_, ?_, ?_, ?_, ?_, ?_, ?_⟩
  · rw [update_of_ne hone]
    exact h.super
  · rw [update_self, hcount]
    exact hlen
  · rw [update_self, hcount]
    exact hlt
  · rw [update_self, hblocks]
    exact hnodup
  · rw [update_self, hblocks]
    exact hhome
  · intro a ha hmem
    rw [update_self, hblocks] at hmem
    have hne : a ≠ sb.logstart.toNat := by
      rintro rfl
      have := hv.nlog_pos
      exact ha ⟨Nat.le_refl _, by omega⟩
    rw [update_of_ne hne, if_neg hmem]
    exact h.disk_eq h0 ha
  · intro k hk
    rw [update_self, hcount] at hk
    have hmem : lh.getD k 0 ∈ lh := by
      rw [List.getD_eq_getElem _ _ hk]
      exact List.getElem_mem hk
    rw [update_self, headBlock_encodeHead hlen hsmall hk, if_pos hmem,
      update_of_ne (by omega)]
    exact hslot k hk

/-- Installing a logged block changes nothing that recovery would not change. -/
theorem install (hv : sb.Valid) (hk : k < headCount (disk sb.logstart.toNat)) :
    Recoverable sb (update disk (headBlock (disk sb.logstart.toNat) k)
      (disk (sb.logstart.toNat + k + 1))) committed := by
  have hhome := h.headBlock_home hk
  have hstart := update_of_ne (Ne.symm (ne_logstart_of_home hhome hv))
    (disk (sb.logstart.toNat + k + 1)) disk
  have hone : (1 : Nat) ≠ headBlock (disk sb.logstart.toNat) k := by
    intro h1
    exact one_not_home hv (h1 ▸ hhome)
  refine ⟨?_, ?_, ?_, ?_, ?_, ?_, ?_⟩
  · rw [update_of_ne hone]
    exact h.super
  · rw [hstart]
    exact h.count_le
  · rw [hstart]
    exact h.count_lt
  · rw [hstart]
    exact h.nodup
  · rw [hstart]
    exact h.home
  · intro a ha hmem
    rw [hstart] at hmem
    have hne : a ≠ headBlock (disk sb.logstart.toNat) k := by
      rintro rfl
      exact hmem (headBlock_mem hk)
    rw [update_of_ne hne]
    exact h.kept a ha hmem
  · intro j hj
    rw [hstart] at hj ⊢
    have hlt := h.count_lt
    have hne : sb.logstart.toNat + j + 1 ≠ headBlock (disk sb.logstart.toNat) k := by
      intro heq
      exact not_inLog_of_home hhome (heq ▸ ⟨by omega, by omega⟩)
    rw [update_of_ne hne]
    exact h.slot j hj

/-- Once every logged block is in place the header may be cleared. -/
theorem clear_head (hv : sb.Valid) (hdone : ∀ k, k < headCount (disk sb.logstart.toNat) →
      disk (headBlock (disk sb.logstart.toNat) k) =
        committed (headBlock (disk sb.logstart.toNat) k)) :
    Recoverable sb (update disk sb.logstart.toNat (encodeHead d [])) committed := by
  have hcount : headCount (encodeHead d []) = 0 := headCount_encodeHead (by simp)
  have hone : (1 : Nat) ≠ sb.logstart.toNat := by
    have := hv.logstart_gt
    omega
  have hpos := hv.nlog_pos
  have hempty : headBlocks (encodeHead d []) = [] := by simp [headBlocks, hcount]
  refine ⟨?_, ?_, ?_, ?_, ?_, ?_, ?_⟩
  · rw [update_of_ne hone]
    exact h.super
  · simp [hcount]
  · simpa [hcount] using hpos
  · simp [hempty]
  · simp [hempty]
  · intro a ha _
    have hne : a ≠ sb.logstart.toNat := by
      rintro rfl
      exact ha ⟨Nat.le_refl _, by omega⟩
    rw [update_of_ne hne]
    by_cases hmem : a ∈ headBlocks (disk sb.logstart.toNat)
    · obtain ⟨k, hk, rfl⟩ := List.mem_map.mp hmem
      exact hdone k (List.mem_range.mp hk)
    · exact h.kept a ha hmem
  · intro k hk
    rw [update_self, hcount] at hk
    exact absurd hk (Nat.not_lt_zero k)

end

end Recoverable

end Xv6.Storage
