import Mathlib.Algebra.BigOperators.Intervals
import Xv6.Fs.Locality

/-!
# The bytes of a file

What `readi` and `writei` do to the bytes of a file when no other process runs between their steps. `bmap` never changes
a byte: a block that it adds is full of zeros, like the hole it fills. `writei` writes piece after piece. A copy from the
user that faults leaves the part of its piece that it has copied in the block, which then is not logged.
-/

namespace Xv6.Fs

open Data Coop Prog Storage Function
open Finset (mem_filter mem_range)

/-- Byte `k` of the file with the fields `d`. It is zero where the file has no block. -/
def fileByte (disk : Nat → Block) (d : Dinode) (k : Nat) : UInt8 :=
  if ptr disk d (ptrOf (k / BSIZE)) = 0 then 0 else (disk (ptr disk d (ptrOf (k / BSIZE)))).get (k % BSIZE)

/-- The values of `g` with `c` values of `f` over them from `off` on. -/
def overlay (g : Nat → UInt8) (off c : Nat) (f : Nat → UInt8) (k : Nat) : UInt8 :=
  if off ≤ k ∧ k < off + c then f (k - off) else g k

theorem overlay_zero (g : Nat → UInt8) (off : Nat) (f : Nat → UInt8) : overlay g off 0 f = g := by
  funext k
  rw [overlay, if_neg (by omega)]

theorem overlay_overlay (g : Nat → UInt8) (off m c : Nat) (f : Nat → UInt8) :
    overlay (overlay g off m f) (off + m) c (fun j => f (m + j)) = overlay g off (m + c) f := by
  funext k
  unfold overlay
  by_cases hsecond : off + m ≤ k ∧ k < off + m + c
  · rw [if_pos hsecond, if_pos (by omega)]
    exact congrArg f (by omega)
  · rw [if_neg hsecond]
    by_cases hfirst : off ≤ k ∧ k < off + m
    · rw [if_pos hfirst, if_pos (by omega)]
    · rw [if_neg hfirst, if_neg (by omega)]

section Bytes

variable {sb : Superblock} {n bn off : Nat} {disk disk' : Nat → Block} {d d' : Dinode} {l : List UInt8}

theorem fileByte_congr (hptr : ∀ bn, ptr disk' d' (ptrOf bn) = ptr disk d (ptrOf bn))
    (hblock : ∀ bn, ptr disk d (ptrOf bn) ≠ 0 → disk' (ptr disk d (ptrOf bn)) = disk (ptr disk d (ptrOf bn))) :
    fileByte disk' d' = fileByte disk d := by
  funext k
  rw [fileByte, fileByte, hptr]
  split
  · rfl
  · rw [hblock _ ‹_›]

theorem Added.fileByte_eq {a : Nat} (h : Added sb n bn a disk d disk' d') (h0 : ptr disk d (ptrOf bn) = 0) :
    fileByte disk' d' = fileByte disk d := by
  funext k
  rw [fileByte, fileByte, h.ptr_eq]
  by_cases hk : k / BSIZE = bn
  · rw [if_pos hk, hk, if_pos h0]
    split
    · rfl
    · rw [h.zero ‹_›, Bytes.get_zero]
  · rw [if_neg hk]
    split
    · rfl
    · rw [h.block _ ‹_›]

theorem Mapped.fileByte_blit (h : Mapped sb n disk d) (h0 : ptr disk d (ptrOf (off / BSIZE)) ≠ 0)
    (hl : off % BSIZE + l.length ≤ BSIZE) :
    fileByte (update disk (ptr disk d (ptrOf (off / BSIZE)))
      ((disk (ptr disk d (ptrOf (off / BSIZE)))).blit (off % BSIZE) l)) d =
      overlay (fileByte disk d) off l.length fun j => l.getD j 0 := by
  have hptr := @Mapped.ptr_update disk d d (fun _ => rfl) _ (h.ptr_ne_indirect (ptrOf_ne_NDIRECT _) h0)
    ((disk (ptr disk d (ptrOf (off / BSIZE)))).blit (off % BSIZE) l)
  funext k
  rw [overlay, fileByte, hptr]
  by_cases hk : k / BSIZE = off / BSIZE
  · have hin : (off % BSIZE ≤ k % BSIZE ∧ k % BSIZE < off % BSIZE + l.length ∧ k % BSIZE < BSIZE) ↔
        (off ≤ k ∧ k < off + l.length) := by lia
    rw [hk, if_neg h0, update_self, Bytes.get_blit, if_congr hin rfl rfl, fileByte, hk, if_neg h0,
      show k % BSIZE - off % BSIZE = k - off by lia]
  · have hout : ¬ (off ≤ k ∧ k < off + l.length) := by lia
    rw [if_neg hout, fileByte]
    split
    · rfl
    · rename_i hne
      have hother : ptr disk d (ptrOf (k / BSIZE)) ≠ ptr disk d (ptrOf (off / BSIZE)) := fun he =>
        hk (ptrOf_inj.mp (h.inj _ _ hne he))
      rw [update_of_ne hother]

end Bytes

theorem length_bytes (src : Source) (t m : Nat) : (src.bytes t m).length = m := by
  rw [Source.bytes, List.length_map, List.length_range]

theorem getD_bytes (src : Source) (t : Nat) {m j : Nat} (hj : j < m) : (src.bytes t m).getD j 0 = src.byte (t + j) := by
  simp [Source.bytes, hj]

/-! ## The blocks in the log -/

/-- No block has left the log, and no commit has begun. -/
structure LogKept (s s' : State) : Prop where
  mem : ∀ b ∈ s.log.lh, b ∈ s'.log.lh
  committing : s'.log.committing = s.log.committing

theorem LogKept.of_eq {s s' : State} (h : s'.log = s.log) : LogKept s s' := by
  refine ⟨fun b hb => ?_, ?_⟩
  · rwa [h]
  · rw [h]

theorem mem_addNew_of_mem {l : List Nat} {b c : Nat} (h : c ∈ l) : c ∈ addNew l b := by
  unfold addNew
  split
  · exact h
  · exact List.mem_append.mpr (.inl h)

theorem mem_addNew_self (l : List Nat) (b : Nat) : b ∈ addNew l b := by
  unfold addNew
  split
  · assumption
  · exact List.mem_append.mpr (.inr (List.mem_singleton.mpr rfl))

instance (i : Fin NINODE) : StableAt i LogKept where
  refl _ := .of_eq rfl
  trans h h' := ⟨fun b hb => h'.mem b (h.mem b hb), h'.committing.trans h.committing⟩
  trace _ _ := .of_eq rfl
  block _ _ _ := .of_eq rfl
  record _ _ := ⟨fun _ hc => mem_addNew_of_mem hc, rfl⟩
  din _ _ := .of_eq rfl

/-! ## The block of an offset -/

variable {p : Pid} {i : Fin NINODE} {s s' : State} {n bn : Nat} {src : Source} {E : Option String → State → Prop}

/-- What `bmap` does in terms of the bytes of the file. -/
structure Located (i : Fin NINODE) (n bn : Nat) (s : State) (a : Nat) (s' : State) : Prop where
  framed : Framed i (if NeedsIndirect (s.din i) bn then 5 else 3) s s'
  mapped : Mapped s'.sb n s'.disk (s'.din i)
  ptr_eq : ptr s'.disk (s'.din i) (ptrOf bn) = a
  other : ∀ bn', bn' ≠ bn → ptr s'.disk (s'.din i) (ptrOf bn') = ptr s.disk (s.din i) (ptrOf bn')
  keep : ∀ bn', ptr s.disk (s.din i) (ptrOf bn') ≠ 0 →
    ptr s'.disk (s'.din i) (ptrOf bn') = ptr s.disk (s.din i) (ptrOf bn')
  byte : fileByte s'.disk (s'.din i) = fileByte s.disk (s.din i)
  size : (s'.din i).size = (s.din i).size
  type : (s'.din i).type = (s.din i).type
  indirect : (s.din i).addr NDIRECT ≠ 0 → (s'.din i).addr NDIRECT ≠ 0
  full : a = 0 → ptr s.disk (s.din i) (ptrOf bn) = 0 ∧ Exhausted s.sb s.disk (s.din i) bn
  marks : Marks (if ptr s.disk (s.din i) (ptrOf bn) = 0 then if NeedsIndirect (s.din i) bn then 2 else 1 else 0) s s'
  logs : ∀ b ∈ s.log.lh, b ∈ s'.log.lh

theorem bmap_located (h : Mapped s.sb n s.disk (s.din i)) (hbn : bn < MAXFILE)
    (hr : Allows E (if NeedsIndirect (s.din i) bn then 5 else 3) s) :
    Ensures E (bmap p i bn) (Located i n bn s) s := by
  refine ensures_mono (ensures_and (bmap_ends h hbn fun _ => hr) (Keeps.bmap (i := i) (R := LogKept) bn s)) ?_
  rintro a s' ⟨⟨hframed, hold, hnew⟩, hlogs⟩
  by_cases h0 : ptr s.disk (s.din i) (ptrOf bn) = 0
  · obtain ⟨ha, hmarks, hind⟩ := hnew h0
    have hother : ∀ bn', bn' ≠ bn → ptr s'.disk (s'.din i) (ptrOf bn') = ptr s.disk (s.din i) (ptrOf bn') := by
      intro bn' hne
      rw [ha.ptr_eq, if_neg hne]
    refine ⟨hframed, ?_, ?_, hother, fun bn' hne => hother bn' fun he => hne (he ▸ h0), ha.fileByte_eq h0, ha.size,
      ha.type, hind, fun hz => ⟨h0, ha.eq_zero_iff.mp hz⟩, ?_, hlogs.mem⟩
    · rw [hframed.sb]
      exact ha.mapped
    · rw [ha.ptr_eq, if_pos rfl]
    · rw [if_pos h0]
      exact hmarks
  · obtain ⟨rfl, rfl⟩ := hold h0
    exact ⟨hframed, h, rfl, fun _ _ => rfl, fun _ _ => rfl, rfl, rfl, rfl, id, fun hz => absurd hz h0, .of_disk_eq _ rfl, hlogs.mem⟩

theorem needsIndirect_addr {d : Dinode} (h : NeedsIndirect d bn) : NDIRECT ≤ bn ∧ d.addr NDIRECT = 0 := by
  unfold NeedsIndirect at h
  rw [not_or, not_not] at h
  exact ⟨by omega, h.2⟩

theorem Located.addr_ne_zero {a : Nat} (h : Located i n bn s a s') (ha : a ≠ 0) (hneed : NeedsIndirect (s.din i) bn) :
    (s'.din i).addr NDIRECT ≠ 0 := by
  intro hzero
  have hbn := (needsIndirect_addr hneed).1
  have hptr : ptrOf bn = bn + 1 := if_neg (by omega)
  have hnone := h.ptr_eq
  rw [ptr_of_addr_eq_zero (by omega) hzero] at hnone
  exact ha hnone.symm

/-! ## Writing -/

/-- The number of pieces of a transfer. -/
def rounds (off len : Nat) : Nat := if len = 0 then 0 else (off % BSIZE + len + BSIZE - 1) / BSIZE

/-- The log takes no more blocks than these from a transfer: the block of each piece, its bitmap block, and
the indirect block with its own bitmap block. -/
def cost (d : Dinode) (off len : Nat) : Nat := 4 * rounds off len + if d.addr NDIRECT = 0 then 2 else 0

theorem rounds_piece (off : Nat) {len : Nat} (h : 0 < len) :
    rounds (off + piece off len) (len - piece off len) + 1 = rounds off len := by
  have hmod : off % 1024 < 1024 := Nat.mod_lt _ (by decide)
  have hall : rounds off len = (off % BSIZE + len + BSIZE - 1) / BSIZE := if_neg (by omega)
  rw [hall]
  rcases Nat.lt_or_ge (BSIZE - off % BSIZE) len with hlt | hge
  · have hpiece : piece off len = BSIZE - off % BSIZE := Nat.min_eq_right hlt.le
    have hstart : (off + (1024 - off % 1024)) % 1024 = 0 := by omega
    rw [hpiece, rounds, if_neg (by lia), show (off + (BSIZE - off % BSIZE)) % BSIZE = 0 from hstart]
    show (0 + (len - (1024 - off % 1024)) + 1024 - 1) / 1024 + 1 = (off % 1024 + len + 1024 - 1) / 1024
    have hlt' : 1024 - off % 1024 < len := hlt
    omega
  · have hpiece : piece off len = len := Nat.min_eq_left hge
    have hge' : len ≤ 1024 - off % 1024 := hge
    rw [hpiece, rounds, if_pos (Nat.sub_self len)]
    show 0 + 1 = (off % 1024 + len + 1024 - 1) / 1024
    omega

/-! ### Free blocks -/

/-- The number of blocks that are not marked. -/
def freeBlocks (sb : Superblock) (disk : Nat → Block) : Nat :=
  ((Finset.range sb.size.toNat).filter fun b => marked sb disk b = false).card

/-- The number of blocks that the file has to get for its blocks from `a` on, `k` in number. -/
def missing (disk : Nat → Block) (d : Dinode) (a k : Nat) : Nat :=
  ((Finset.range k).filter fun j => ptr disk d (ptrOf (a + j)) = 0).card +
    if d.addr NDIRECT = 0 ∧ NDIRECT < a + k ∧ 0 < k then 1 else 0

theorem Marks.freeBlocks_le {k : Nat} (h : Marks k s s') : freeBlocks s.sb s.disk ≤ freeBlocks s.sb s'.disk + k := by
  obtain ⟨l, hl, hmarks⟩ := h
  have hsub : (Finset.range s.sb.size.toNat).filter (fun b => marked s.sb s.disk b = false) ⊆
      (Finset.range s.sb.size.toNat).filter (fun b => marked s.sb s'.disk b = false) ∪ l.toFinset := by
    intro b hb
    obtain ⟨hlt, hclear⟩ := mem_filter.mp hb
    rw [Finset.mem_union, mem_filter, List.mem_toFinset]
    cases hm : marked s.sb s'.disk b with
    | false => exact .inl ⟨hlt, rfl⟩
    | true =>
      rcases hmarks b (mem_range.mp hlt) hm with hin | hin
      · exact .inr hin
      · cases hclear.symm.trans hin
  have hcard := Finset.card_le_card hsub
  have hunion := Finset.card_union_le ((Finset.range s.sb.size.toNat).filter fun b => marked s.sb s'.disk b = false)
    l.toFinset
  have hlist := l.toFinset_card_le
  unfold freeBlocks
  omega

/-- Where `bmap` finds no block, there are not enough. -/
theorem freeBlocks_lt_missing {a k : Nat} {sb : Superblock} {disk : Nat → Block} {d : Dinode}
    (h0 : ptr disk d (ptrOf a) = 0) (he : Exhausted sb disk d a) (hk : 0 < k) : freeBlocks sb disk < missing disk d a k := by
  have hfirst : 0 < ((Finset.range k).filter fun j => ptr disk d (ptrOf (a + j)) = 0).card :=
    Finset.card_pos.mpr ⟨0, mem_filter.mpr ⟨mem_range.mpr hk, h0⟩⟩
  unfold Exhausted at he
  by_cases hone : a < NDIRECT ∨ d.addr NDIRECT ≠ 0
  · rw [if_pos hone] at he
    have hnone : freeBlocks sb disk = 0 := by
      refine Finset.card_eq_zero.mpr (Finset.filter_eq_empty_iff.mpr fun b hb => ?_)
      rw [he b (mem_range.mp hb)]
      exact Bool.noConfusion
    unfold missing
    omega
  · rw [if_neg hone] at he
    have hle : freeBlocks sb disk ≤ 1 := Finset.card_le_one.mpr fun b hb c hc => by
      obtain ⟨hb, hfb⟩ := mem_filter.mp hb
      obtain ⟨hc, hfc⟩ := mem_filter.mp hc
      exact he b c (mem_range.mp hb) (mem_range.mp hc) hfb hfc
    rw [not_or, not_not] at hone
    unfold missing
    rw [if_pos ⟨hone.2, by omega, hk⟩]
    omega

/-- What a round takes from the free blocks, and what the rounds after it need. -/
theorem Located.missing_le {a b k : Nat} (h : Located i n b s a s') (ha : a ≠ 0) :
    missing s'.disk (s'.din i) (b + 1) k + (if ptr s.disk (s.din i) (ptrOf b) = 0 then
      if NeedsIndirect (s.din i) b then 2 else 1 else 0) ≤ missing s.disk (s.din i) b (k + 1) := by
  have hcount : ((Finset.range (k + 1)).filter fun j => ptr s.disk (s.din i) (ptrOf (b + j)) = 0).card =
      ((Finset.range k).filter fun j => ptr s'.disk (s'.din i) (ptrOf (b + 1 + j)) = 0).card +
        if ptr s.disk (s.din i) (ptrOf b) = 0 then 1 else 0 := by
    have hrest : ∀ j, ptr s'.disk (s'.din i) (ptrOf (b + 1 + j)) = ptr s.disk (s.din i) (ptrOf (b + (j + 1))) := by
      intro j
      rw [h.other _ (by omega), show b + 1 + j = b + (j + 1) by omega]
    simp only [hrest, Finset.card_filter, Finset.sum_range_succ', Nat.add_zero]
  unfold missing
  rw [hcount]
  by_cases hneed : NeedsIndirect (s.din i) b
  · obtain ⟨hb, haddr⟩ := needsIndirect_addr hneed
    have hptr : ptrOf b = b + 1 := if_neg (by omega)
    have hzero : ptr s.disk (s.din i) (ptrOf b) = 0 := ptr_of_addr_eq_zero (by omega) haddr
    have hnow : (s'.din i).addr NDIRECT ≠ 0 := h.addr_ne_zero ha hneed
    rw [if_neg (fun hboth => hnow hboth.1), if_pos hzero, if_pos hneed, if_pos hzero,
      if_pos ⟨haddr, by omega, by omega⟩]
  · rw [if_neg hneed]
    have hless : (if (s'.din i).addr NDIRECT = 0 ∧ NDIRECT < b + 1 + k ∧ 0 < k then 1 else 0) ≤
        if (s.din i).addr NDIRECT = 0 ∧ NDIRECT < b + (k + 1) ∧ 0 < k + 1 then 1 else 0 := by
      split
      · rename_i hboth
        rw [if_pos ⟨by_contra fun hne => h.indirect hne hboth.1, by omega, by omega⟩]
      · exact Nat.zero_le _
    omega

/-- No copy of the first `n` bytes of the buffer faults. -/
def Source.SafeTo (src : Source) (n : Nat) : Prop := ∀ t m, t + m ≤ n → src.copied t m = m

/-- The bytes that a copy has left behind that faulted after `w` bytes of the transfer. -/
def strayed (src : Source) (tot off len w : Nat) (s' : State) (i : Fin NINODE) : Nat :=
  if w < len ∧ ptr s'.disk (s'.din i) (ptrOf ((off + w) / BSIZE)) ≠ 0 then
    src.copied (tot + w) (piece (off + w) (len - w))
  else 0

/-- What the loop of `writei` does with `len` bytes from offset `tot` of the source on: it writes `w` of them at offset
`off` of the file, and logs them. Without a fault it stops early only for want of free blocks. -/
structure Wrote (i : Fin NINODE) (n : Nat) (src : Source) (tot off len : Nat) (s : State) (w : Nat) (s' : State) :
    Prop where
  le : w ≤ len
  framed : Framed i (cost (s.din i) off len) s s'
  mapped : Mapped s'.sb n s'.disk (s'.din i)
  byte : fileByte s'.disk (s'.din i) =
    overlay (fileByte s.disk (s.din i)) off (w + strayed src tot off len w s' i) fun j => src.byte (tot + j)
  size : (s'.din i).size = (s.din i).size
  type : (s'.din i).type = (s.din i).type
  keep : ∀ bn, ptr s.disk (s.din i) (ptrOf bn) ≠ 0 →
    ptr s'.disk (s'.din i) (ptrOf bn) = ptr s.disk (s.din i) (ptrOf bn)
  logs : ∀ b ∈ s.log.lh, b ∈ s'.log.lh
  logged : ∀ k, off ≤ k → k < off + w → ptr s'.disk (s'.din i) (ptrOf (k / BSIZE)) ∈ s'.log.lh
  short : src.SafeTo (tot + len) → w < len → strayed src tot off len w s' i = 0 ∧
    freeBlocks s.sb s.disk < missing s.disk (s.din i) (off / BSIZE) (rounds off len)

theorem Wrote.none (h : Mapped s.sb n s.disk (s.din i)) (src : Source) (tot off : Nat) : Wrote i n src tot off 0 s 0 s where
  le := Nat.zero_le _
  framed := (Framed.refl i s).mono (Nat.zero_le _)
  mapped := h
  byte := by rw [strayed, if_neg (by omega), overlay_zero]
  size := rfl
  type := rfl
  keep _ _ := rfl
  logs _ hb := hb
  logged _ h1 h2 := absurd h1 (by omega)
  short _ hlt := absurd hlt (by omega)

theorem le_cost (d : Dinode) (bn off : Nat) {len : Nat} (h : 0 < len) :
    (if NeedsIndirect d bn then 5 else 3) + 1 ≤ cost d off len := by
  have hrounds := rounds_piece off h
  unfold cost
  by_cases hneed : NeedsIndirect d bn
  · rw [if_pos hneed, if_pos (needsIndirect_addr hneed).2]
    omega
  · rw [if_neg hneed]
    omega

/-- What a round takes from the log, and what the rounds after it take. -/
theorem Located.cost_le {a off len : Nat} (h : Located i n (off / BSIZE) s a s') (ha : a ≠ 0) (hlen : 0 < len) :
    (if NeedsIndirect (s.din i) (off / BSIZE) then 5 else 3) + 1 +
      cost (s'.din i) (off + piece off len) (len - piece off len) ≤ cost (s.din i) off len := by
  have hrounds := rounds_piece off hlen
  unfold cost
  by_cases hneed : NeedsIndirect (s.din i) (off / BSIZE)
  · rw [if_pos hneed, if_pos (needsIndirect_addr hneed).2, if_neg (h.addr_ne_zero ha hneed)]
    omega
  · rw [if_neg hneed]
    by_cases haddr : (s.din i).addr NDIRECT = 0
    · rw [if_pos haddr]
      split <;> omega
    · rw [if_neg haddr, if_neg (h.indirect haddr)]
      omega

/-- Bytes from the source are put into the block of the offset. -/
structure Put (i : Fin NINODE) (n : Nat) (src : Source) (tot off c : Nat) (s s₁ s' : State) : Prop where
  mapped : Mapped s'.sb n s'.disk (s'.din i)
  ptr_eq : ∀ m, ptr s'.disk (s'.din i) m = ptr s₁.disk (s₁.din i) m
  byte : fileByte s'.disk (s'.din i) = overlay (fileByte s.disk (s.din i)) off c fun j => src.byte (tot + j)
  free : freeBlocks s'.sb s'.disk = freeBlocks s₁.sb s₁.disk
  missing : missing s'.disk (s'.din i) = Fs.missing s₁.disk (s₁.din i)

theorem Located.put {s1 : State} {a tot off len c : Nat} (h : Located i n (off / BSIZE) s a s1) (ha : a ≠ 0)
    (hc : c ≤ piece off len) (hsb : s'.sb = s1.sb) (hdin : s'.din i = s1.din i)
    (hdisk : s'.disk = update s1.disk a ((s1.disk a).blit (off % BSIZE) (src.bytes tot c))) :
    Put i n src tot off c s s1 s' := by
  have h0 : ptr s1.disk (s1.din i) (ptrOf (off / BSIZE)) ≠ 0 := by rwa [h.ptr_eq]
  have hind := h.mapped.ptr_ne_indirect (ptrOf_ne_NDIRECT _) h0
  have hmeta := h.mapped.apart _ h0
  have hin : off % BSIZE + (src.bytes tot c).length ≤ BSIZE := by
    rw [length_bytes]
    unfold piece at hc
    have hmod : off % 1024 < 1024 := Nat.mod_lt _ (by decide)
    lia
  have hbyte := h.mapped.fileByte_blit h0 hin
  rw [h.ptr_eq] at hind hmeta hbyte
  have hptr : ∀ m, ptr s'.disk (s'.din i) m = ptr s1.disk (s1.din i) m := by
    rw [hdin, hdisk]
    exact Mapped.ptr_update (fun _ => rfl) hind _
  refine ⟨?_, hptr, ?_, ?_, ?_⟩
  · rw [hsb, hdin, hdisk]
    exact h.mapped.put (fun _ => rfl) hind (fun b hb he => hmeta (Or.inr ⟨b, hb, he⟩)) _
  · rw [hdin, hdisk, hbyte, h.byte, length_bytes]
    funext k
    unfold overlay
    by_cases hk : off ≤ k ∧ k < off + c
    · rw [if_pos hk, if_pos hk]
      exact getD_bytes src tot (by omega)
    · rw [if_neg hk, if_neg hk]
  · unfold freeBlocks
    rw [hsb]
    refine congrArg Finset.card (Finset.filter_congr fun b hb => ?_)
    have hne : bitmapBlock s1.sb b ≠ a := fun he => hmeta (Or.inr ⟨b, mem_range.mp hb, he.symm⟩)
    rw [marked, hdisk, update_of_ne hne, marked]
  · funext a k
    unfold Fs.missing
    simp only [hptr]
    rw [hdin]

theorem writeLoop_ends {k : Nat} : ∀ {tot off len : Nat} {s : State}, Mapped s.sb n s.disk (s.din i) →
    off + len ≤ MAXFILE * BSIZE → len ≤ k → Allows E (cost (s.din i) off len) s →
    Ensures E (writeLoop p i src k tot off len) (fun r s' => ∃ w, r = tot + w ∧ Wrote i n src tot off len s w s') s := by
  induction k with
  | zero =>
    intro tot off len s h _ hk _
    obtain rfl := Nat.le_zero.mp hk
    exact ⟨0, rfl, .none h src tot off⟩
  | succ k ih =>
    intro tot off len s h hend hk hr
    unfold writeLoop
    by_cases hlen : 0 < len
    swap
    · rw [if_neg hlen]
      obtain rfl := Nat.eq_zero_of_not_pos hlen
      exact ⟨0, rfl, .none h src tot off⟩
    rw [if_pos hlen]
    have hbn : off / BSIZE < MAXFILE := by lia
    have hrounds := rounds_piece off hlen
    have hless := le_cost (s.din i) (off / BSIZE) off hlen
    apply ensures_seq (bmap_located h hbn (hr.mono (by omega)))
    intro a s1 hloc
    by_cases ha : a = 0
    · -- the disk is full
      rw [if_pos ha]
      have hnone : strayed src tot off len 0 s1 i = 0 := by
        rw [strayed, Nat.add_zero, hloc.ptr_eq]
        exact if_neg fun hboth => hboth.2 ha
      refine ⟨0, rfl, Nat.zero_le _, hloc.framed.mono (by omega), hloc.mapped, ?_, hloc.size, hloc.type, hloc.keep,
        hloc.logs, fun k h1 h2 => absurd h1 (by omega), fun _ _ => ?_⟩
      · rw [hnone, overlay_zero, hloc.byte]
      · obtain ⟨h0, he⟩ := hloc.full ha
        exact ⟨hnone, freeBlocks_lt_missing h0 he (by omega)⟩
    rw [if_neg ha]
    apply ensures_seq (bread_ends _)
    intro data s2 hdata
    rw [hdata.1, hdata.2]
    have hcost := hloc.cost_le ha hlen
    have hpiece : piece off len ≤ len := Nat.min_le_left _ _
    have hpos : 0 < piece off len := by
      have hmod : off % 1024 < 1024 := Nat.mod_lt _ (by decide)
      unfold piece
      lia
    by_cases hcopied : src.copied tot (piece off len) = piece off len
    · simp only [hcopied, if_true]
      refine putBlock_logWrite_ends (i := i) (hloc.framed.allows (hr.mono (by omega)))
        fun s2 hframed hdin hdisk hlh => ?_
      have hput := hloc.put ha (Nat.le_refl _) hframed.sb hdin hdisk
      have hin : a ∈ s2.log.lh := hlh ▸ mem_addNew_self _ _
      have hframed2 := hloc.framed.trans hframed
      rw [← hdin] at hcost
      refine ensures_mono (ih hput.mapped (by omega) (by omega) (hframed2.allows (hr.mono hcost))) ?_
      rintro _ s' ⟨w, rfl, hw⟩
      have hstray : strayed src (tot + piece off len) (off + piece off len) (len - piece off len) w s' i =
          strayed src tot off len (piece off len + w) s' i := by
        unfold strayed
        rw [Nat.add_assoc, Nat.add_assoc, Nat.sub_sub]
        exact if_congr (and_congr_left fun _ => by have := hw.le; omega) rfl rfl
      refine ⟨piece off len + w, Nat.add_assoc .., ?_, (hframed2.trans hw.framed).mono hcost, hw.mapped, ?_, ?_, ?_, ?_, ?_, ?_,
        fun hsafe hlt => ?_⟩
      · have := hw.le
        omega
      · have hsplit := overlay_overlay (fileByte s.disk (s.din i)) off (piece off len)
          (w + strayed src tot off len (piece off len + w) s' i) fun j => src.byte (tot + j)
        rw [hw.byte, hput.byte, hstray, Nat.add_assoc (piece off len) w, ← hsplit]
        simp only [Nat.add_assoc]
      · rw [hw.size, hdin, hloc.size]
      · rw [hw.type, hdin, hloc.type]
      · intro bn hbn
        have hsame := hloc.keep bn hbn
        rw [hw.keep bn (by rwa [hput.ptr_eq, hsame]), hput.ptr_eq, hsame]
      · intro b hb
        exact hw.logs b (hlh ▸ mem_addNew_of_mem (hloc.logs b hb))
      · intro k h1 h2
        rcases Nat.lt_or_ge k (off + piece off len) with hlt | hge
        · have hblock : k / BSIZE = off / BSIZE := by
            unfold piece at hlt
            lia
          have hptr : ptr s2.disk (s2.din i) (ptrOf (off / BSIZE)) = a := by rw [hput.ptr_eq, hloc.ptr_eq]
          rw [hblock, hw.keep _ (by rwa [hptr]), hptr]
          exact hw.logs a hin
        · exact hw.logged k hge (by omega)
      · have hnext : (off + piece off len) / BSIZE = off / BSIZE + 1 := by
          unfold piece at hlt ⊢
          have hle := hw.le
          unfold piece at hle
          lia
        obtain ⟨hclean, hshort⟩ := hw.short (fun t m ht => hsafe t m (by omega)) (by omega)
        have hneeds := hloc.missing_le (k := rounds (off + piece off len) (len - piece off len)) ha
        have hfree := hloc.marks.freeBlocks_le
        rw [hnext, hput.free, hput.missing, hloc.framed.sb] at hshort
        rw [hrounds] at hneeds
        exact ⟨hstray.symm.trans hclean, by omega⟩
    · -- the copy faults, and what it has copied is in the block
      simp only [if_neg hcopied]
      have hput : Put i n src tot off _ s s1 (s1.setBlock a ((s1.disk a).blit (off % BSIZE)
        (src.bytes tot (src.copied tot (piece off len))))) := hloc.put ha (src.copied_le _ _) rfl rfl rfl
      have hframed : Framed i 0 s1 (s1.setBlock a ((s1.disk a).blit (off % BSIZE)
        (src.bytes tot (src.copied tot (piece off len))))) := ⟨rfl, fun _ _ => rfl, rfl, rfl, rfl, Nat.le_refl _⟩
      refine ⟨0, rfl, Nat.zero_le _, (hloc.framed.trans hframed).mono (by omega), hput.mapped, ?_, hloc.size, hloc.type,
        fun bn hbn => (hput.ptr_eq _).trans (hloc.keep bn hbn), hloc.logs, fun k h1 h2 => absurd h1 (by omega),
        fun hsafe _ => absurd (hsafe tot _ (by omega)) hcopied⟩
      rw [strayed, Nat.add_zero, Nat.add_zero, Nat.sub_zero, hput.ptr_eq, hloc.ptr_eq, if_pos ⟨hlen, ha⟩, Nat.zero_add]
      exact hput.byte

/-- What `writei` does when it reports `w` bytes. -/
structure Stored (i : Fin NINODE) (src : Source) (off len : Nat) (s : State) (w : Nat) (s' : State) : Prop where
  start : off ≤ (s.din i).size.toNat
  fits : off + len ≤ MAXFILE * BSIZE
  le : w ≤ len
  framed : Framed i (cost (s.din i) off len + 1) s s'
  mapped : Mapped s'.sb (s'.icache i).inum s'.disk (s'.din i)
  byte : fileByte s'.disk (s'.din i) =
    overlay (fileByte s.disk (s.din i)) off (w + strayed src 0 off len w s' i) src.byte
  size : (s'.din i).size.toNat = max (s.din i).size.toNat (off + w)
  type : (s'.din i).type = (s.din i).type
  logged : ∀ k, off ≤ k → k < off + w → ptr s'.disk (s'.din i) (ptrOf (k / BSIZE)) ∈ s'.log.lh
  short : src.SafeTo len → w < len → strayed src 0 off len w s' i = 0 ∧
    freeBlocks s.sb s.disk < missing s.disk (s.din i) (off / BSIZE) (rounds off len)

/-- `writei` refuses the transfer. -/
def Refused (d : Dinode) (off len : UInt32) : Prop :=
  d.size < off ∨ off + len < off ∨ MAXFILE * BSIZE < (off + len).toNat

theorem toNat_add_of_le {off len : UInt32} (h : ¬ off + len < off) : (off + len).toNat = off.toNat + len.toNat := by
  rw [UInt32.lt_iff_toNat_lt, UInt32.toNat_add] at h
  rw [UInt32.toNat_add]
  have hoff := off.toNat_lt
  have hlen := len.toNat_lt
  omega

theorem writei_ends {off len : UInt32} (h : Mapped s.sb (s.icache i).inum s.disk (s.din i))
    (hr : Allows E (cost (s.din i) off.toNat len.toNat + 1) s) :
    Ensures E (writei p i src off len) (fun r s' => match r with
      | none => s' = s ∧ Refused (s.din i) off len
      | some w => Stored i src off.toNat len.toNat s w s') s := by
  unfold writei
  show Ensures E (if (s.din i).size < off ∨ off + len < off then _ else _) _ s
  by_cases hout : (s.din i).size < off ∨ off + len < off
  · rw [if_pos hout]
    exact ⟨rfl, hout.imp_right .inl⟩
  rw [if_neg hout]
  by_cases hbig : MAXFILE * BSIZE < (off + len).toNat
  · rw [if_pos hbig]
    exact ⟨rfl, .inr (.inr hbig)⟩
  rw [if_neg hbig]
  rw [not_or] at hout
  have hsum := toNat_add_of_le hout.2
  have hstart : off.toNat ≤ (s.din i).size.toNat := Nat.not_lt.mp fun hlt => hout.1 (UInt32.lt_iff_toNat_lt.mpr hlt)
  apply ensures_seq (writeLoop_ends h (by omega) (Nat.le_refl _) (hr.mono (by omega)))
  rintro _ s1 ⟨w, rfl, hw⟩
  rw [Nat.zero_add]
  have hinum := hw.framed.inum
  have hmapped : Mapped s1.sb (s1.icache i).inum s1.disk (s1.din i) := by
    rw [hinum]
    exact hw.mapped
  refine ensures_mono (ensures_and (modDin_iupdate_ends hmapped (fun _ => rfl) (hw.framed.allows hr)
    (fun s' hs' => show Ensures E (pure (some w)) (fun r t => r = some w ∧ Synced i _ s1 t) s' from ⟨rfl, hs'⟩))
    (Keeps.modDin_iupdate (R := LogKept) _ (some w) s1)) ?_
  rintro _ s' ⟨⟨rfl, hs'⟩, hlogs⟩
  have hbyte : fileByte s'.disk (s'.din i) = fileByte s1.disk (s1.din i) :=
    fileByte_congr (fun bn => hs'.ptr_eq _) fun bn => hs'.block _
  have hstray : strayed src 0 off.toNat len.toNat w s' i = strayed src 0 off.toNat len.toNat w s1 i := by
    rw [strayed, hs'.ptr_eq, strayed]
  refine ⟨hstart, by omega, hw.le, hw.framed.trans hs'.framed, hs'.mapped, ?_, ?_, ?_, fun k h1 h2 => ?_, fun hsafe hlt => ?_⟩
  · rw [hbyte, hw.byte, hstray]
    simp only [Nat.zero_add]
  · have hle := hw.le
    have hfits : off.toNat + w < 2 ^ 32 := by lia
    have hend : (off + UInt32.ofNat w).toNat = off.toNat + w := by
      rw [UInt32.toNat_add, UInt32.toNat_ofNat']
      omega
    rw [hs'.din]
    dsimp only
    rw [hw.size]
    by_cases hgrow : (s.din i).size < off + UInt32.ofNat w
    · rw [if_pos hgrow, hend, max_eq_right]
      rw [UInt32.lt_iff_toNat_lt, hend] at hgrow
      exact hgrow.le
    · rw [if_neg hgrow, max_eq_left]
      rw [UInt32.lt_iff_toNat_lt, hend] at hgrow
      omega
  · rw [hs'.din, ← hw.type]
  · rw [hs'.ptr_eq]
    exact hlogs.mem _ (hw.logged k h1 h2)
  · rw [hstray]
    exact hw.short (by rwa [Nat.zero_add]) hlt

/-! ## What a faulting write changes -/

/-- A file of one block, on a disk without free blocks whose bytes are all 255. -/
def oneBlock : State where
  sb := mkfsSuperblock
  disk := fun _ _ => 255
  log := { start := 2, size := 30, dev := ROOTDEV, outstanding := 1 }
  icache := fun _ =>
    { inum := 2, ref := 1, lock := some 1, valid := true
      din := { type := T_FILE, nlink := 1, size := 1024, addrs := fun k => if k = 0 then 47 else 0 } }
  ftable := fun _ => {}
  ofile := fun _ _ => none

/-- A buffer whose third byte is not mapped. -/
def twoBytes : Source := ⟨fun _ => 7, fun _ m => min m 2, fun _ m => Nat.min_le_left m 2⟩

theorem mapped_oneBlock : Mapped oneBlock.sb 2 oneBlock.disk (oneBlock.din 0) :=
  Direct.mapped (by decide +kernel)

theorem oneBlock_parts :
    ((writei 1 0 twoBytes 0 2).run oneBlock).returned (fun r _ => decide (r = some 2)) ∧
    ((writei 1 0 twoBytes 0 4).run oneBlock).returned (fun r s' => decide (r = some 0 ∧ (s'.din 0).size = 1024 ∧
      fileByte s'.disk (s'.din 0) 0 ≠ fileByte oneBlock.disk (oneBlock.din 0) 0 ∧
      ptr s'.disk (s'.din 0) (ptrOf 0) ∉ s'.log.lh)) := by
  decide +kernel

end Xv6.Fs
