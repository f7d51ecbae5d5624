import Xv6.Fs.Visit

/-!
# Reclaiming an inode

The last `iput` of an inode without links frees its blocks. The blocks are different and marked, so `bfree_release`
accepts each of them. The writes of the bitmap are absorbed by the log, so that it has to have room for the bitmap blocks
that it does not hold yet and not for each of the freed blocks.
-/

namespace Xv6.Fs

open Data Coop Prog Storage Function

/-! ## Room for the bitmap -/

def bitmapCount (sb : Superblock) : Nat := (sb.size.toNat + BPB - 1) / BPB

def bitmapBlocks (sb : Superblock) : Finset Nat :=
  (Finset.range (bitmapCount sb)).image (sb.bmapstart.toNat + ·)

theorem bitmapBlock_mem {sb : Superblock} {b : Nat} (hb : b < sb.size.toNat) : bitmapBlock sb b ∈ bitmapBlocks sb := by
  refine Finset.mem_image.mpr ⟨b / BPB, Finset.mem_range.mpr ?_, rfl⟩
  unfold bitmapCount
  have hpos : 0 < BPB := by decide
  rw [Nat.lt_div_iff_mul_lt hpos]
  have := Nat.div_mul_le_self b BPB
  lia

theorem card_bitmapBlocks_le (sb : Superblock) (lh : List Nat) :
    (bitmapBlocks sb \ lh.toFinset).card ≤ bitmapCount sb :=
  calc (bitmapBlocks sb \ lh.toFinset).card ≤ (bitmapBlocks sb).card := Finset.card_le_card Finset.sdiff_subset
    _ ≤ (Finset.range (bitmapCount sb)).card := Finset.card_image_le
    _ = bitmapCount sb := Finset.card_range _

/-- The log takes the bitmap blocks that it does not hold and `k` more blocks. -/
def Ample (k : Nat) (s : State) : Prop := Room ((bitmapBlocks s.sb \ s.log.lh.toFinset).card + k) s

theorem Room.ample {k : Nat} {s : State} (h : Room (bitmapCount s.sb + k) s) : Ample k s :=
  h.mono (Nat.add_le_add_right (card_bitmapBlocks_le _ _) k)

theorem Ample.room {k : Nat} {s : State} (h : Ample k s) : Room k s := h.mono (Nat.le_add_left _ _)

/-- A bitmap block in the log makes no difference to the room that is left. -/
theorem card_addNew {B : Finset Nat} {b : Nat} (lh : List Nat) (hb : b ∈ B) :
    (addNew lh b).length + (B \ (addNew lh b).toFinset).card = lh.length + (B \ lh.toFinset).card := by
  unfold addNew
  split
  · rfl
  · rename_i hmem
    have hin : b ∈ B \ lh.toFinset := by simp [hb, hmem]
    have hset : B \ (lh ++ [b]).toFinset = (B \ lh.toFinset).erase b := by
      ext c
      simp only [List.toFinset_append, List.toFinset_cons, List.toFinset_nil, Finset.mem_sdiff, Finset.mem_union,
        Finset.mem_erase, List.mem_toFinset, Finset.mem_insert, Finset.notMem_empty, or_false, not_or]
      tauto
    have hpos := Finset.card_pos.mpr ⟨b, hin⟩
    rw [hset, Finset.card_erase_of_mem hin, List.length_append, List.length_singleton]
    omega

theorem Ample.addNew {k : Nat} {s s' : State} {b : Nat} (h : Ample k s) (hb : b ∈ bitmapBlocks s.sb) (hsb : s'.sb = s.sb)
    (hlog : s'.log = { s.log with lh := addNew s.log.lh b }) : Ample k s' := by
  have hcard := card_addNew s.log.lh hb
  have hlh : s'.log.lh = Storage.addNew s.log.lh b := by rw [hlog]
  have hlogsize := h.logsize
  have hsize := h.size
  refine ⟨?_, ?_, ?_⟩
  · rw [hsb, hlh]
    omega
  · rw [hsb, hlh, hlog]
    show _ ≤ s32 s.log.size - 1
    omega
  · rw [hlog]
    exact h.outstanding

theorem Ample.congr {k : Nat} {s s' : State} (h : Ample k s) (hsb : s'.sb = s.sb) (hlog : s'.log = s.log) : Ample k s' := by
  refine ⟨?_, ?_, ?_⟩ <;> rw [hlog]
  · rw [hsb]
    exact h.logsize
  · rw [hsb]
    exact h.size
  · exact h.outstanding

section Freeing

variable {p : Pid} {i : Fin NINODE} {s s' : State} {n k : Nat}

/-- What `bfree_release` does to the disk. -/
def release (sb : Superblock) (disk : Nat → Block) (b : Nat) : Nat → Block :=
  update disk (bitmapBlock sb b) ((disk (bitmapBlock sb b)).clearBit (b % BPB))

theorem marked_release {sb : Superblock} {disk : Nat → Block} {b c : Nat} (h : c ≠ b) :
    marked sb (release sb disk b) c = marked sb disk c := by
  unfold marked release
  by_cases hblock : bitmapBlock sb c = bitmapBlock sb b
  · have hmod : c % BPB ≠ b % BPB := by
      unfold bitmapBlock at hblock
      intro hmod
      exact h (Nat.div_add_mod c BPB ▸ Nat.div_add_mod b BPB ▸ by rw [hmod, show c / BPB = b / BPB by omega])
    rw [hblock, update_self, Bytes.bit_clearBit_of_ne hmod]
  · rw [update_of_ne hblock]

theorem bfreeRelease_total {b : Nat} (hb : b < s.sb.size.toNat) (hm : marked s.sb s.disk b)
    (hr : Ample (k + 1) s) :
    Total (bfreeRelease p b) (fun _ s' => s'.sb = s.sb ∧ s'.icache = s.icache ∧ Ample (k + 1) s' ∧
      s'.disk = release s.sb s.disk b) s := by
  unfold bfreeRelease
  show Total (if _ then _ else _) _ s
  rw [if_neg (Nat.not_le.mpr hb)]
  apply ensures_seq (bread_ends _)
  rintro data s1 ⟨rfl, rfl⟩
  have hbit : (s1.disk (bitmapBlock s1.sb b)).bit (b % BPB) = true := hm
  rw [if_pos hbit]
  have hroom : Room 1 s1 := hr.room.mono (by omega)
  have hfits : fits s1.log = true := by
    have h1 := hroom.logsize
    have h2 := hroom.size
    simp only [fits, decide_eq_true_eq]
    omega
  simp only [putBlock, logWrite, ensures_bind, ensures_modify, ensures_check]
  refine ⟨fun _ => ⟨fun _ => ⟨rfl, rfl, ?_, rfl⟩, fun hc => ?_⟩, fun hc => ?_⟩
  · exact hr.addNew (bitmapBlock_mem hb) rfl rfl
  · exact absurd hr.outstanding (of_decide_eq_false hc)
  · exact absurd (hc.symm.trans hfits) (by decide)

/-- The blocks of the pointers with `F` of the inode in slot `i` have been freed since `s`. -/
structure Freeing (i : Fin NINODE) (k : Nat) (F : Nat → Prop) (s s' : State) : Prop where
  sb : s'.sb = s.sb
  other : ∀ j, j ≠ i → s'.icache j = s.icache j
  entry : s'.icache i = { s.icache i with din := s'.din i }
  ample : Ample (k + 1) s'
  marked : ∀ c, (∀ m, F m → c ≠ ptr s.disk (s.din i) m) → Fs.marked s.sb s'.disk c = Fs.marked s.sb s.disk c
  block : ∀ b, (∀ c, c < s.sb.size.toNat → b ≠ bitmapBlock s.sb c) → s'.disk b = s.disk b

namespace Freeing

variable {F F' : Nat → Prop} {m : Nat}

theorem refl (hr : Ample (k + 1) s) (F : Nat → Prop) : Freeing i k F s s :=
  ⟨rfl, fun _ _ => rfl, rfl, hr, fun _ _ => rfl, fun _ _ => rfl⟩

theorem mono (h : Freeing i k F s s') (hF : ∀ m, F m → F' m) : Freeing i k F' s s' :=
  { h with marked := fun c hc => h.marked c fun m hm => hc m (hF m hm) }

theorem modDin (h : Freeing i k F s s') (f : Dinode → Dinode) : Freeing i k F s (s'.modDin i f) :=
  { h with
    other := fun j hj => (State.modInode_of_ne _ _ hj).trans (h.other j hj)
    entry := by
      rw [din_modDin]
      refine (State.modInode_self _ _ _).trans ?_
      rw [h.entry]
    ample := h.ample.congr rfl rfl }

theorem bfree (h : Freeing i k F s s') (hmap : Mapped s.sb n s.disk (s.din i)) (hm : ¬ F m)
    (h0 : ptr s.disk (s.din i) m ≠ 0) :
    Total (bfreeRelease p (ptr s.disk (s.din i) m))
      (fun _ s'' => s''.icache = s'.icache ∧ Freeing i k (fun m' => F m' ∨ m' = m) s s'') s' := by
  have hmarked : Fs.marked s'.sb s'.disk (ptr s.disk (s.din i) m) = true := by
    rw [h.sb, h.marked, hmap.set m h0]
    intro m' hm' he
    exact hm (hmap.inj m m' h0 he ▸ hm')
  have hlt := hmap.lt m h0
  refine ensures_mono (bfreeRelease_total (h.sb ▸ hlt) hmarked h.ample) ?_
  rintro _ s'' ⟨hsb, hicache, hample, hdisk⟩
  rw [h.sb] at hdisk
  refine ⟨hicache, hsb.trans h.sb, fun j hj => ?_, ?_, hample, fun c hc => ?_, fun b hb => ?_⟩
  · rw [hicache, h.other j hj]
  · unfold State.din
    rw [hicache]
    exact h.entry
  · rw [hdisk, marked_release (hc m (Or.inr rfl)), h.marked c fun m' hm' => hc m' (Or.inl hm')]
  · rw [hdisk, release, update_of_ne (hb _ hlt), h.block b hb]

end Freeing

/-- The addresses from `k` on are as before. -/
def Kept (i : Fin NINODE) (k : Nat) (s s' : State) : Prop := ∀ m, k ≤ m → (s'.din i).addr m = (s.din i).addr m

theorem itruncDirect_total (hmap : Mapped s.sb n s.disk (s.din i)) {m : Nat} (hm : m < NDIRECT)
    (h : Freeing i k (· < m) s s') (hkept : Kept i m s s') :
    Total (itruncDirect p i m) (fun _ s'' => Freeing i k (· < m + 1) s s'' ∧ Kept i (m + 1) s s'') s' := by
  have hptr : (s'.din i).addr m = ptr s.disk (s.din i) m := by
    rw [hkept m (Nat.le_refl m), ptr_direct (Nat.le_of_lt hm)]
  unfold itruncDirect
  show Total (if (s'.din i).addr m = 0 then _ else bfreeRelease p ((s'.din i).addr m) >>= _) _ s'
  rw [hptr]
  by_cases h0 : ptr s.disk (s.din i) m = 0
  · rw [if_pos h0]
    exact ⟨h.mono fun m' hm' => Nat.lt_succ_of_lt hm', fun m' hm' => hkept m' (Nat.le_of_succ_le hm')⟩
  · rw [if_neg h0]
    apply ensures_seq (h.bfree hmap (Nat.lt_irrefl m) h0)
    rintro _ s1 ⟨hicache, h1⟩
    refine ⟨(h1.modDin _).mono fun m' hm' => by omega, fun m' hm' => ?_⟩
    rw [din_modDin, Dinode.addr_setAddr_of_ne (by omega)]
    have hdin : s1.din i = s'.din i := congrArg (fun c => (c i).din) hicache
    rw [hdin, hkept m' (by omega)]

theorem itrunc_total (hmap : Mapped s.sb n s.disk (s.din i)) (hr : Ample (k + 2) s) :
    Total (itrunc p i) (fun _ s' => s'.sb = s.sb ∧ (∀ j, j ≠ i → s'.icache j = s.icache j) ∧
      s'.icache i = { s.icache i with din := s'.din i } ∧ Room (k + 1) s') s := by
  have hlast : ∀ {F : Nat → Prop} {s1 : State}, Freeing i (k + 1) F s s1 →
      Total (modify (fun s => s.modDin i fun d => { d with size := 0 }) >>= fun _ => iupdate p i)
        (fun _ s' => s'.sb = s.sb ∧ (∀ j, j ≠ i → s'.icache j = s.icache j) ∧
          s'.icache i = { s.icache i with din := s'.din i } ∧ Room (k + 1) s') s1 := by
    intro F s1 h1
    have h2 := h1.modDin fun d => { d with size := 0 }
    refine ensures_mono (iupdate_ends (.inr (h2.ample.room.mono (by omega)))) ?_
    rintro _ s' ⟨hframed, hdin, _⟩
    refine ⟨hframed.sb.trans h2.sb, fun j hj => (hframed.other j hj).trans (h2.other j hj), ?_, ?_⟩
    · rw [hframed.entry, h2.entry]
    · exact hframed.room (h2.ample.room.mono (by omega))
  unfold itrunc
  apply ensures_seq (ensures_loop (fun m s' => Freeing i (k + 1) (· < m) s s' ∧ Kept i m s s')
    (fun m s' _ hm h => itruncDirect_total hmap (by omega) h.1 h.2) ⟨Freeing.refl hr _, fun _ _ => rfl⟩)
  rintro _ s1 ⟨h1, hkept⟩
  rw [Nat.zero_add] at h1 hkept
  have hind : (s1.din i).addr NDIRECT = ptr s.disk (s.din i) NDIRECT := by
    rw [hkept _ (Nat.le_refl _), ptr_direct (Nat.le_refl _)]
  show Total (if (s1.din i).addr NDIRECT = 0 then _ else _) _ s1
  rw [hind]
  by_cases h0 : ptr s.disk (s.din i) NDIRECT = 0
  · rw [if_pos h0]
    exact hlast h1
  · rw [if_neg h0]
    apply ensures_seq (bread_ends _)
    rintro data s2 ⟨rfl, rfl⟩
    have haddr : (s.din i).addr NDIRECT ≠ 0 := by rwa [ptr_direct (Nat.le_refl _)] at h0
    have hdata : s2.disk (ptr s.disk (s.din i) NDIRECT) = s.disk ((s.din i).addr NDIRECT) := by
      rw [h1.block _ fun c hc he => hmap.apart NDIRECT h0 (Or.inr ⟨c, hc, he⟩), ptr_direct (Nat.le_refl _)]
    simp only [hind, hdata]
    -- the pointers after the indirect one are the entries of the indirect block
    apply ensures_seq (ensures_loop
      (fun j s' => Freeing i (k + 1) (fun m => m ≠ NDIRECT ∧ m < NDIRECT + 1 + j) s s') ?_ ?_)
    · intro _ s3 h3
      apply ensures_seq (h3.bfree hmap (fun hc => hc.1 rfl) h0)
      rintro _ s4 ⟨_, h4⟩
      exact hlast (h4.modDin _)
    · intro j s' _ hj h
      have hentry : ((s.disk ((s.din i).addr NDIRECT)).u32 (4 * j)).toNat = ptr s.disk (s.din i) (NDIRECT + 1 + j) := by
        rw [ptr_entry (by omega) (by lia) haddr, show NDIRECT + 1 + j - (NDIRECT + 1) = j by omega]
      unfold itruncEntry
      rw [hentry]
      show Total (if ptr s.disk (s.din i) (NDIRECT + 1 + j) = 0 then _ else _) _ s'
      by_cases hj0 : ptr s.disk (s.din i) (NDIRECT + 1 + j) = 0
      · rw [if_pos hj0]
        exact h.mono fun m hm => ⟨hm.1, by omega⟩
      · rw [if_neg hj0]
        refine ensures_mono (h.bfree hmap (fun hc => by omega) hj0) ?_
        rintro _ s'' ⟨_, h'⟩
        exact h'.mono fun m hm => by omega
    · exact h1.mono fun m hm => by omega

/-- `iput` of an unlocked inode; if it is reclaimed, the log has room. -/
theorem iput_reclaim_total (hone : 1 ≤ (s.icache i).ref) (hlock : (s.icache i).lock = none)
    (hmap : Mapped s.sb n s.disk (s.din i)) (hr : Ample 3 s) :
    Total (iput p i) (fun _ s' => s'.sb = s.sb ∧ ∀ j, j ≠ i → s'.icache j = s.icache j) s := by
  unfold iput
  show Total (if _ then _ else _) _ s
  by_cases hkeep : (s.icache i).ref ≠ 1 ∨ (s.icache i).valid = false ∨ (s.icache i).din.nlink ≠ 0
  · rw [if_pos hkeep]
    refine ensures_check_bind.mpr ⟨fun _ => ?_, fun hc => absurd hone (of_decide_eq_false hc)⟩
    exact ⟨rfl, fun j hj => State.modInode_of_ne _ _ hj⟩
  · rw [if_neg hkeep]
    have href : (s.icache i).ref = 1 := by
      by_contra hne
      exact hkeep (Or.inl hne)
    refine ensures_seq (R := fun _ s1 => s1 = s.noteChange p) rfl ?_
    rintro _ s1 rfl
    apply ensures_seq (acquireInode_total (s := s.noteChange p) hlock)
    rintro _ s2 rfl
    generalize hs2 : ((s.noteChange p).noteWake p).modInode i _ = s2
    have hself : s2.icache i = { s.icache i with lock := some p } := by
      rw [← hs2]
      exact State.modInode_self _ _ _
    have hother : ∀ j, j ≠ i → s2.icache j = s.icache j := by
      intro j hj
      rw [← hs2]
      exact State.modInode_of_ne _ _ hj
    have hsb : s2.sb = s.sb := by rw [← hs2]; rfl
    have hmap2 : Mapped s2.sb n s2.disk (s2.din i) := by
      have hdin : s2.din i = s.din i := by
        unfold State.din
        rw [hself]
      have hdisk : s2.disk = s.disk := by rw [← hs2]; rfl
      rw [hsb, hdisk, hdin]
      exact hmap
    have hr2 : Ample 3 s2 := by
      rw [← hs2]
      exact hr.congr rfl rfl
    apply ensures_seq (itrunc_total hmap2 hr2)
    rintro _ s3 ⟨hsb3, hother3, hentry3, hroom3⟩
    have hframed : Framed i 0 s3 (s3.modDin i fun d => { d with type := 0 }) := framed_modDin _
    refine ensures_seq (R := fun _ s4 => s4 = s3.modDin i fun d => { d with type := 0 }) rfl ?_
    rintro _ s4 rfl
    apply ensures_seq (iupdate_ends (.inr (hframed.room (by simpa using hroom3.mono (by omega)))))
    rintro _ s5 ⟨hframed5, _, _⟩
    have href5 : (s5.icache i).ref = 1 := by rw [hframed5.ref, hframed.ref, hentry3, hself, href]
    have hother5 : ∀ j, j ≠ i → s5.icache j = s.icache j := fun j hj => by
      rw [hframed5.other j hj, hframed.other j hj, hother3 j hj, hother j hj]
    have hsb5 : s5.sb = s.sb := by rw [hframed5.sb, hframed.sb, hsb3, hsb]
    simp only [releaseInode, ensures_bind, ensures_modify, ensures_check, decide_eq_true_eq, decide_eq_false_iff_not,
      State.modInode_self]
    refine ⟨fun _ => ⟨hsb5, fun j hj => ?_⟩, fun hne => absurd href5 hne⟩
    rw [State.modInode_of_ne _ _ hj, State.modInode_of_ne _ _ hj, State.modInode_of_ne _ _ hj, hother5 j hj]

end Freeing

end Xv6.Fs
