import Xv6.Fs.Inode
import Xv6.Coop.Sequential

/-!
# The blocks of an inode

What `balloc_alloc`, `bmap`, `iupdate` and `writei` do to the blocks of one inode when no other
process runs between their steps. An inode is mapped when its pointers lead to different marked
blocks, none of which holds a part of the bitmap or the inode itself. Each function keeps an inode
mapped, and what it does to the pointers and to the blocks is said in terms of `ptr`.

The log has to have room for the blocks that a function writes; `Room k` says that `k` more can be
logged. Without it the function may end in a panic, so each result is stated for any `E`.
-/

namespace Xv6.Fs

open Data Coop Prog Storage Function

/-! ## The log -/

/-- An operation is open and the log takes `k` more blocks. -/
structure Room (k : Nat) (s : State) : Prop where
  logsize : s.log.lh.length + k ≤ LOGSIZE
  size : (s.log.lh.length + k : Int) ≤ s32 s.log.size - 1
  outstanding : 1 ≤ s.log.outstanding

/-- Nothing changed but blocks, at most `k` entries of the log, the trace and the fields of the
inode in slot `i`. -/
structure Framed (i : Fin NINODE) (k : Nat) (s s' : State) : Prop where
  sb : s'.sb = s.sb
  other : ∀ j, j ≠ i → s'.icache j = s.icache j
  entry : s'.icache i = { s.icache i with din := s'.din i }
  outstanding : s'.log.outstanding = s.log.outstanding
  size : s'.log.size = s.log.size
  lh : s'.log.lh.length ≤ s.log.lh.length + k

/-- The log takes `k` more blocks, unless the program may end abnormally. -/
def Allows (E : Option String → State → Prop) (k : Nat) (s : State) : Prop := (∀ m s', E m s') ∨ Room k s

namespace Framed

variable {i : Fin NINODE} {j k : Nat} {s s' s'' : State}

theorem refl (i : Fin NINODE) (s : State) : Framed i 0 s s := ⟨rfl, fun _ _ => rfl, rfl, rfl, rfl, by simp⟩

theorem trans (h : Framed i j s s') (h' : Framed i k s' s'') : Framed i (j + k) s s'' where
  sb := h'.sb.trans h.sb
  other l hl := (h'.other l hl).trans (h.other l hl)
  entry := by rw [h'.entry, h.entry]
  outstanding := h'.outstanding.trans h.outstanding
  size := h'.size.trans h.size
  lh := by have := h.lh; have := h'.lh; omega

theorem mono (h : Framed i j s s') (hjk : j ≤ k) : Framed i k s s' :=
  { h with lh := by have := h.lh; omega }

theorem inum (h : Framed i k s s') : (s'.icache i).inum = (s.icache i).inum := by rw [h.entry]

theorem ref (h : Framed i k s s') : (s'.icache i).ref = (s.icache i).ref := by rw [h.entry]

theorem room (h : Framed i j s s') (hr : Room (j + k) s) : Room k s' where
  logsize := by have := h.lh; have := hr.logsize; omega
  size := by have := h.lh; have := hr.size; rw [h.size]; omega
  outstanding := by rw [h.outstanding]; exact hr.outstanding

theorem allows {E : Option String → State → Prop} (h : Framed i j s s') (hr : Allows E (j + k) s) : Allows E k s' :=
  hr.imp_right h.room

end Framed

theorem din_modDin {i : Fin NINODE} {s : State} (f : Dinode → Dinode) : (s.modDin i f).din i = f (s.din i) := by
  show (update s.icache i _ i).din = _
  rw [update_self]
  rfl

theorem framed_modDin {i : Fin NINODE} {s : State} (f : Dinode → Dinode) : Framed i 0 s (s.modDin i f) where
  sb := rfl
  other j hj := update_of_ne hj _ _
  entry := by
    rw [din_modDin]
    exact update_self _ _ _
  outstanding := rfl
  size := rfl
  lh := Nat.le_refl _

theorem Room.mono {j k : Nat} {s : State} (h : Room k s) (hjk : j ≤ k) : Room j s where
  logsize := by have := h.logsize; omega
  size := by have := h.size; omega
  outstanding := h.outstanding

theorem Allows.mono {E : Option String → State → Prop} {j k : Nat} {s : State} (h : Allows E k s) (hjk : j ≤ k) :
    Allows E j s := h.imp_right fun hr => hr.mono hjk

theorem length_addNew_le (l : List Nat) (b : Nat) : (addNew l b).length ≤ l.length + 1 := by
  unfold addNew
  split <;> simp

/-- The program returns with `Q`, or ends abnormally with `E`. -/
abbrev Ensures {α : Type} (E : Option String → State → Prop) (x : Prog State α) (Q : α → State → Prop) (s : State) : Prop :=
  x.ensures (fun _ => True) E Q s

/-- The program returns, with `Q`. -/
abbrev Total {α : Type} (x : Prog State α) (Q : α → State → Prop) (s : State) : Prop :=
  x.ensures (fun _ => True) (fun _ _ => False) Q s

variable {E : Option String → State → Prop} {m : Nat}

section Programs

variable {p : Pid} {i : Fin NINODE} {s : State}

theorem bread_ends (b : Nat) : Ensures E (bread b) (fun d s' => d = s.disk b ∧ s' = s) s := by
  simp [bread, ensures_bind]

theorem putBlock_logWrite_ends {α : Type} {rest : Prog State α} {b : Nat} {d : Block}
    {Q : α → State → Prop} (hr : Allows E 1 s)
    (hQ : ∀ s', Framed i 1 s s' → s'.din i = s.din i → s'.disk = update s.disk b d →
      s'.log.lh = addNew s.log.lh b → Ensures E rest Q s') :
    Ensures E (putBlock b d >>= fun _ => logWrite p b >>= fun _ => rest) Q s := by
  simp only [Ensures, putBlock, logWrite, ensures_bind, ensures_modify, ensures_check, State.noteWrite,
    State.modTrace, State.setBlock, State.setLog]
  refine ⟨fun _ => ⟨fun _ => hQ _ ⟨rfl, fun _ _ => rfl, rfl, rfl, rfl, length_addNew_le _ _⟩ rfl rfl rfl,
    fun hout => ?_⟩, fun hfull => ?_⟩
  · rcases hr with hE | hr
    · exact hE _ _
    · exact absurd hr.outstanding (of_decide_eq_false hout)
  · rcases hr with hE | hr
    · exact hE _ _
    · have h1 := hr.logsize
      have h2 := hr.size
      simp only [fits, decide_eq_false_iff_not] at hfull
      omega

end Programs

/-! ## The allocation bitmap -/

/-- The bit of block `b` is set. -/
def marked (sb : Superblock) (disk : Nat → Block) (b : Nat) : Bool :=
  (disk (bitmapBlock sb b)).bit (b % BPB)

/-- Block `b` holds a part of the bitmap or the inode `n`. -/
def Meta (sb : Superblock) (n b : Nat) : Prop :=
  b = inodeBlock sb n ∨ ∃ c, c < sb.size.toNat ∧ b = bitmapBlock sb c

/-- The disk after the allocation of block `a`: its bit is set and it is full of zeros. -/
def claim (sb : Superblock) (disk : Nat → Block) (a : Nat) : Nat → Block :=
  update (update disk (bitmapBlock sb a)
    ((disk (bitmapBlock sb a)).setBit (a % BPB))) a Bytes.zero

section Bitmap

variable {sb : Superblock} {disk : Nat → Block} {n a b : Nat}

theorem claim_self : claim sb disk a a = Bytes.zero := update_self _ _ _

theorem claim_of_ne (h : b ≠ a) (hb : b ≠ bitmapBlock sb a) : claim sb disk a b = disk b := by
  rw [claim, update_of_ne h, update_of_ne hb]

theorem marked_claim (ha : ¬ Meta sb n a) (hb : b < sb.size.toNat) :
    marked sb (claim sb disk a) b = (decide (b = a) || marked sb disk b) := by
  have hne : bitmapBlock sb b ≠ a := fun h => ha (Or.inr ⟨b, hb, h.symm⟩)
  unfold marked claim
  rw [update_of_ne hne]
  by_cases hblock : bitmapBlock sb b = bitmapBlock sb a
  · have hdiv : b / BPB = a / BPB := by unfold bitmapBlock at hblock; omega
    have hbyte : a % BPB / 8 < BSIZE := by lia
    have hsame : (b % BPB = a % BPB) ↔ b = a := ⟨fun h => by lia, fun h => by rw [h]⟩
    rw [hblock, update_self, Bytes.bit_setBit hbyte, decide_eq_decide.mpr hsame]
  · have hba : b ≠ a := fun h => hblock (by rw [h])
    rw [update_of_ne hblock, decide_eq_false hba, Bool.false_or]

/-- The bit that the inner loop of `balloc_alloc` finds is clear. -/
theorem of_firstClear_eq_some {k bi : Nat} (h : firstClear sb (disk (bitmapBlock sb (BPB * k))) (BPB * k) = some bi) :
    BPB * k + bi < sb.size.toNat ∧ bi < BPB ∧ marked sb disk (BPB * k + bi) = false := by
  obtain ⟨hbit, hmem, -⟩ := List.find?_range_eq_some.mp h
  have hlt := List.mem_range.mp hmem
  have hbi : bi < BPB := by omega
  have hmod : (BPB * k + bi) % BPB = bi := by lia
  have hdiv : (BPB * k + bi) / BPB = BPB * k / BPB := by lia
  refine ⟨by omega, hbi, ?_⟩
  rw [marked, bitmapBlock, hdiv, hmod]
  simpa [bitmapBlock] using hbit

/-- When it finds none, the bits of the whole bitmap block are set. -/
theorem marked_of_firstClear_eq_none {k : Nat}
    (h : firstClear sb (disk (bitmapBlock sb (BPB * k))) (BPB * k) = none) (hb : b < sb.size.toNat)
    (hk : b / BPB = k) : marked sb disk b := by
  have hmem : b % BPB ∈ List.range (min BPB (sb.size.toNat - BPB * k)) := by
    apply List.mem_range.mpr
    lia
  have hbit := List.find?_eq_none.mp h _ hmem
  have hdiv : b / BPB = BPB * k / BPB := by lia
  rw [marked, bitmapBlock, hdiv]
  simpa [bitmapBlock] using hbit

end Bitmap

/-- What `balloc_alloc` does: a free block is taken, or there is none. -/
structure Allocated (i : Fin NINODE) (s : State) (a : Nat) (s' : State) : Prop where
  framed : Framed i 2 s s'
  din : s'.din i = s.din i
  cases : (a = 0 ∧ s'.disk = s.disk ∧ ∀ b, b < s.sb.size.toNat → marked s.sb s.disk b = true) ∨
    (a < s.sb.size.toNat ∧ marked s.sb s.disk a = false ∧ s'.disk = claim s.sb s.disk a)

theorem ballocFrom_ends {p : Pid} {i : Fin NINODE} {s : State} (hr : Allows E 2 s) {k : Nat} :
    ∀ {j : Nat}, (∀ b, b < s.sb.size.toNat → b / BPB < j → marked s.sb s.disk b) →
      (s.sb.size.toNat + BPB - 1) / BPB ≤ j + k →
      Ensures E (ballocFrom p s.sb k (BPB * j)) (Allocated i s) s := by
  -- the bits of the bitmap blocks before the `j`-th one are set
  induction k with
  | zero =>
    intro j hset hk
    refine ⟨(Framed.refl i s).mono (by omega), rfl, Or.inl ⟨rfl, rfl, fun b hb => ?_⟩⟩
    exact hset b hb (by lia)
  | succ k ih =>
    intro j hset hk
    unfold ballocFrom
    apply ensures_seq (bread_ends _)
    intro data s' hdata
    rw [hdata.1, hdata.2]
    cases hfirst : firstClear s.sb (s.disk (bitmapBlock s.sb (BPB * j))) (BPB * j) with
    | none =>
      refine ih (j := j + 1) (fun b hb hj => ?_) (by lia)
      by_cases hlt : b / BPB < j
      · exact hset b hb hlt
      · exact marked_of_firstClear_eq_none hfirst hb (by omega)
    | some bi =>
      obtain ⟨hlt, hbi, hclear⟩ := of_firstClear_eq_some hfirst
      have hmod : (BPB * j + bi) % BPB = bi := by lia
      have hblock : bitmapBlock s.sb (BPB * j + bi) = bitmapBlock s.sb (BPB * j) := by
        have hdiv : (BPB * j + bi) / BPB = BPB * j / BPB := by lia
        rw [bitmapBlock, bitmapBlock, hdiv]
      refine putBlock_logWrite_ends (i := i) (hr.mono (by omega)) fun s1 hframed1 hdin1 hdisk1 _ => ?_
      have hr1 : Allows E 1 s1 := hframed1.allows hr
      refine ensures_seq ?_ fun _ _ h => h
      unfold bzeroBlock
      apply ensures_seq (bread_ends _)
      intro _ s2 hs2
      rw [hs2.2]
      show Ensures E (putBlock _ _ >>= fun _ => logWrite p _ >>= fun _ => pure ()) _ _
      refine putBlock_logWrite_ends (i := i) hr1 fun s3 hframed3 hdin3 hdisk3 _ => ?_
      refine ⟨hframed1.trans hframed3, hdin3.trans hdin1, Or.inr ⟨hlt, hclear, ?_⟩⟩
      rw [hdisk3, hdisk1, claim, hmod, hblock]

theorem ballocAlloc_ends {p : Pid} {i : Fin NINODE} {s : State} (hr : Allows E 2 s) :
    Ensures E (ballocAlloc p) (Allocated i s) s := by
  refine ballocFrom_ends hr (fun b _ h => absurd h (Nat.not_lt_zero _)) ?_
  rw [Nat.zero_add]

/-! ## Mapped inodes -/

/-- The pointers of the inode `n` with the fields `d` lead to different marked blocks, none of which
holds the bitmap or the inode. Neither do the free blocks. -/
structure Mapped (sb : Superblock) (n : Nat) (disk : Nat → Block) (d : Dinode) : Prop where
  fixed : ∀ b, b < sb.size.toNat → marked sb disk b = false → b ≠ 0 ∧ ¬ Meta sb n b
  split : ∀ c, c < sb.size.toNat → inodeBlock sb n ≠ bitmapBlock sb c
  lt : ∀ m, ptr disk d m ≠ 0 → ptr disk d m < sb.size.toNat
  set : ∀ m, ptr disk d m ≠ 0 → marked sb disk (ptr disk d m) = true
  apart : ∀ m, ptr disk d m ≠ 0 → ¬ Meta sb n (ptr disk d m)
  inj : ∀ m m', ptr disk d m ≠ 0 → ptr disk d m = ptr disk d m' → m = m'

/-- The inode has no indirect block, and its pointers are those of a mapped inode. -/
def Direct (sb : Superblock) (n : Nat) (disk : Nat → Block) (d : Dinode) : Prop :=
  (∀ b, b < sb.size.toNat → marked sb disk b = false → b ≠ 0 ∧ ¬ Meta sb n b) ∧
    (∀ c, c < sb.size.toNat → inodeBlock sb n ≠ bitmapBlock sb c) ∧ d.addr NDIRECT = 0 ∧
    ∀ m, m < NDIRECT → d.addr m ≠ 0 → d.addr m < sb.size.toNat ∧ marked sb disk (d.addr m) = true ∧
      ¬ Meta sb n (d.addr m) ∧ ∀ m', m' < NDIRECT → d.addr m = d.addr m' → m = m'

instance (sb : Superblock) (n b : Nat) : Decidable (Meta sb n b) :=
  inferInstanceAs (Decidable (_ ∨ ∃ c, c < sb.size.toNat ∧ b = bitmapBlock sb c))

instance (sb : Superblock) (n : Nat) (disk : Nat → Block) (d : Dinode) : Decidable (Direct sb n disk d) :=
  inferInstanceAs (Decidable (_ ∧ _ ∧ _ ∧ _))

theorem Direct.ptr_eq {sb : Superblock} {n : Nat} {disk : Nat → Block} {d : Dinode} (h : Direct sb n disk d)
    (hm : ptr disk d m ≠ 0) : m < NDIRECT ∧ ptr disk d m = d.addr m := by
  rcases Nat.lt_trichotomy m NDIRECT with hlt | rfl | hgt
  · exact ⟨hlt, ptr_direct hlt.le⟩
  · exact absurd ((ptr_direct (Nat.le_refl _)).trans h.2.2.1) hm
  · exact absurd (ptr_of_addr_eq_zero hgt h.2.2.1) hm

theorem Direct.mapped {sb : Superblock} {n : Nat} {disk : Nat → Block} {d : Dinode} (h : Direct sb n disk d) :
    Mapped sb n disk d := by
  have hgood : ∀ m, ptr disk d m ≠ 0 → _ := fun m hm => h.2.2.2 m (h.ptr_eq hm).1 ((h.ptr_eq hm).2 ▸ hm)
  refine ⟨h.1, h.2.1, fun m hm => ?_, fun m hm => ?_, fun m hm => ?_, fun m m' hm he => ?_⟩
  · rw [(h.ptr_eq hm).2]
    exact (hgood m hm).1
  · rw [(h.ptr_eq hm).2]
    exact (hgood m hm).2.1
  · rw [(h.ptr_eq hm).2]
    exact (hgood m hm).2.2.1
  · have hm' := h.ptr_eq (he ▸ hm)
    refine (hgood m hm).2.2.2 m' hm'.1 ?_
    rw [← (h.ptr_eq hm).2, he, hm'.2]

namespace Mapped

variable {sb : Superblock} {n : Nat} {disk disk' : Nat → Block} {d d' : Dinode}

theorem ptr_ne_of_clear (h : Mapped sb n disk d) {a : Nat} (hclear : marked sb disk a = false)
    (hm : ptr disk d m ≠ 0) : ptr disk d m ≠ a := by
  intro he
  have hset := h.set m hm
  rw [he, hclear] at hset
  cases hset

/-- A free block becomes the target of a pointer that there was not. -/
theorem grow (h : Mapped sb n disk d) {a : Nat} (ha : a < sb.size.toNat) (hclear : marked sb disk a = false)
    (hptr : ∀ m', ptr disk' d' m' = if m' = m then a else ptr disk d m')
    (hmarked : ∀ b, b < sb.size.toNat → marked sb disk' b = (decide (b = a) || marked sb disk b)) :
    Mapped sb n disk' d' := by
  refine ⟨?_, h.split, ?_, ?_, ?_, ?_⟩
  · intro b hb hfree
    rw [hmarked b hb, Bool.or_eq_false_iff] at hfree
    exact h.fixed b hb hfree.2
  · intro m' hm'
    rw [hptr] at hm' ⊢
    split_ifs at hm' ⊢ with he
    · exact ha
    · exact h.lt m' hm'
  · intro m' hm'
    rw [hptr] at hm' ⊢
    split_ifs at hm' ⊢ with he
    · simp [hmarked a ha]
    · simp [hmarked _ (h.lt m' hm'), h.set m' hm']
  · intro m' hm'
    rw [hptr] at hm' ⊢
    split_ifs at hm' ⊢ with he
    · exact (h.fixed a ha hclear).2
    · exact h.apart m' hm'
  · intro m1 m2 hm1 he
    rw [hptr, hptr] at he
    rw [hptr] at hm1
    split_ifs at hm1 he with h1 h2 h2
    · rw [h1, h2]
    · exact absurd he.symm (h.ptr_ne_of_clear hclear (he ▸ hm1))
    · exact absurd he (h.ptr_ne_of_clear hclear hm1)
    · exact h.inj m1 m2 hm1 he

/-- A write to another block than the indirect block keeps the pointers. -/
theorem ptr_update (ha : ∀ k, d'.addr k = d.addr k) {c : Nat}
    (hc : d.addr NDIRECT ≠ 0 → c ≠ d.addr NDIRECT) (x : Block) (m : Nat) :
    ptr (update disk c x) d' m = ptr disk d m :=
  ptr_congr ha (fun hind => update_of_ne (hc hind).symm _ _) m

section

variable (h : Mapped sb n disk d)
include h

theorem put (ha : ∀ k, d'.addr k = d.addr k) {c : Nat} (hc : d.addr NDIRECT ≠ 0 → c ≠ d.addr NDIRECT)
    (hb : ∀ b, b < sb.size.toNat → c ≠ bitmapBlock sb b) (x : Block) :
    Mapped sb n (update disk c x) d' := by
  have hptr := @ptr_update disk d d' ha c hc x
  have hmarked : ∀ b, b < sb.size.toNat → marked sb (update disk c x) b = marked sb disk b := by
    intro b hlt
    rw [marked, update_of_ne (hb b hlt).symm, marked]
  refine ⟨?_, h.split, ?_, ?_, ?_, ?_⟩
  · intro b hlt hfree
    rw [hmarked b hlt] at hfree
    exact h.fixed b hlt hfree
  · intro m hm
    rw [hptr] at hm ⊢
    exact h.lt m hm
  · intro m hm
    rw [hptr] at hm ⊢
    rw [hmarked _ (h.lt m hm)]
    exact h.set m hm
  · intro m hm
    rw [hptr] at hm ⊢
    exact h.apart m hm
  · intro m m' hm he
    rw [hptr] at hm
    rw [hptr, hptr] at he
    exact h.inj m m' hm he

/-- The contents of a block of the file are no pointers. -/
theorem ptr_ne_indirect (hm : m ≠ NDIRECT)
    (h0 : ptr disk d m ≠ 0) : d.addr NDIRECT ≠ 0 → ptr disk d m ≠ d.addr NDIRECT := by
  intro _ he
  rw [← @ptr_direct d NDIRECT disk (Nat.le_refl _)] at he
  exact hm (h.inj m NDIRECT h0 he)

theorem inodeBlock_ne_ptr (h0 : ptr disk d m ≠ 0) :
    inodeBlock sb n ≠ ptr disk d m := fun he => h.apart m h0 (Or.inl he.symm)

theorem inodeBlock_ne_indirect : d.addr NDIRECT ≠ 0 → inodeBlock sb n ≠ d.addr NDIRECT := by
  intro hind
  rw [← @ptr_direct d NDIRECT disk (Nat.le_refl _)] at hind ⊢
  exact h.inodeBlock_ne_ptr hind

end

end Mapped

/-- The pointer `m` of an inode leads to the new block `a`. The other pointers are as they were, and
so are the blocks that they lead to, apart from the indirect block. -/
structure Grown (sb : Superblock) (n m a : Nat) (disk : Nat → Block) (d : Dinode) (disk' : Nat → Block)
    (d' : Dinode) : Prop where
  mapped : Mapped sb n disk' d'
  ptr_eq : ∀ m', ptr disk' d' m' = if m' = m then a else ptr disk d m'
  block : ∀ m', m' ≠ NDIRECT → ptr disk d m' ≠ 0 → disk' (ptr disk d m') = disk (ptr disk d m')
  zero : disk' a = Bytes.zero
  marked_eq : ∀ b, b < sb.size.toNat → marked sb disk' b = (decide (b = a) || marked sb disk b)
  size : d'.size = d.size
  type : d'.type = d.type
  direct : m ≤ NDIRECT → disk' = claim sb disk a ∧ d' = d.setAddr m a

namespace Mapped

variable {sb : Superblock} {n a : Nat} {disk : Nat → Block} {d : Dinode}

section

variable (h : Mapped sb n disk d)
include h

/-- An allocation does not touch the blocks of the inode. -/
theorem claim_ptr (ha : a < sb.size.toNat) (hclear : marked sb disk a = false) (hm : ptr disk d m ≠ 0) :
    claim sb disk a (ptr disk d m) = disk (ptr disk d m) :=
  claim_of_ne (h.ptr_ne_of_clear hclear hm) fun he => h.apart m hm (Or.inr ⟨a, ha, he⟩)

theorem ptr_claim (ha : a < sb.size.toNat)
    (hclear : marked sb disk a = false) (m : Nat) : ptr (claim sb disk a) d m = ptr disk d m := by
  refine ptr_congr (fun _ => rfl) (fun hind => ?_) m
  rw [← ptr_direct (Nat.le_refl NDIRECT)] at hind ⊢
  exact h.claim_ptr ha hclear hind

theorem setAddr {k : Nat} (hk : k ≤ NDIRECT) (h0 : d.addr k = 0)
    (ha : a < sb.size.toNat) (hclear : marked sb disk a = false) :
    Grown sb n k a disk d (claim sb disk a) (d.setAddr k a) := by
  have hv : a < 2 ^ 32 := Nat.lt_trans ha sb.size.toNat_lt
  have hmarked := fun b (hb : b < sb.size.toNat) =>
    @marked_claim sb disk n a b (h.fixed a ha hclear).2 hb
  have hptr : ∀ m, ptr (claim sb disk a) (d.setAddr k a) m = if m = k then a else ptr disk d m := by
    intro m
    rw [← h.ptr_claim ha hclear m]
    by_cases hkn : k = NDIRECT
    · subst hkn
      exact ptr_setAddr_indirect h0 hv claim_self m
    · exact ptr_setAddr_direct (by omega) hv m
  exact ⟨h.grow ha hclear hptr hmarked, hptr, fun m _ hm => h.claim_ptr ha hclear hm, claim_self,
    hmarked, rfl, rfl, fun _ => ⟨rfl, rfl⟩⟩

/-- The disk after an allocation whose block is entered into the indirect block. -/
theorem setEntry (hm : NDIRECT < m) (hmn : m < NPTR)
    (hind : d.addr NDIRECT ≠ 0) (ha : a < sb.size.toNat) (hclear : marked sb disk a = false) :
    Grown sb n m a disk d (update (claim sb disk a) (d.addr NDIRECT)
      ((disk (d.addr NDIRECT)).putU32 (4 * (m - (NDIRECT + 1))) (UInt32.ofNat a))) d := by
  have hv : a < 2 ^ 32 := Nat.lt_trans ha sb.size.toNat_lt
  have hdirect : ptr disk d NDIRECT = d.addr NDIRECT := ptr_direct (Nat.le_refl _)
  have hindPtr : ptr disk d NDIRECT ≠ 0 := by rwa [hdirect]
  have hkeep := h.claim_ptr ha hclear hindPtr
  rw [hdirect] at hkeep
  have hnotBitmap : ∀ b, b < sb.size.toNat → bitmapBlock sb b ≠ d.addr NDIRECT := fun b hb he =>
    h.apart NDIRECT hindPtr (Or.inr ⟨b, hb, by rw [hdirect, he]⟩)
  have hptr : ∀ m', ptr (update (claim sb disk a) (d.addr NDIRECT)
      ((disk (d.addr NDIRECT)).putU32 (4 * (m - (NDIRECT + 1))) (UInt32.ofNat a))) d m' =
        if m' = m then a else ptr disk d m' := by
    intro m'
    rw [← hkeep, ptr_setEntry hm hmn hind hv, h.ptr_claim ha hclear]
  have hmarked : ∀ b, b < sb.size.toNat → marked sb (update (claim sb disk a) (d.addr NDIRECT)
      ((disk (d.addr NDIRECT)).putU32 (4 * (m - (NDIRECT + 1))) (UInt32.ofNat a))) b =
        (decide (b = a) || marked sb disk b) := by
    intro b hb
    rw [marked, update_of_ne (hnotBitmap b hb), ← marked]
    exact marked_claim (h.fixed a ha hclear).2 hb
  refine ⟨h.grow ha hclear hptr hmarked, hptr, ?_, ?_, hmarked, rfl, rfl, fun hle => absurd hle (by omega)⟩
  · intro m' hm' hne
    have hother : ptr disk d m' ≠ d.addr NDIRECT := fun he => hm' (h.inj m' NDIRECT hne (he.trans hdirect.symm))
    rw [update_of_ne hother, h.claim_ptr ha hclear hne]
  · have hother : a ≠ d.addr NDIRECT := fun he =>
      h.ptr_ne_of_clear hclear hindPtr (hdirect.trans he.symm)
    rw [update_of_ne hother, claim_self]

end

end Mapped

/-- Block 0 is never free, so the result zero means that there is no free block. -/
theorem Allocated.zero_or {i : Fin NINODE} {s s' : State} {n a : Nat} {d : Dinode}
    (ha : Allocated i s a s') (h : Mapped s.sb n s.disk d) :
    (a = 0 ∧ (∀ b, b < s.sb.size.toNat → marked s.sb s.disk b) ∧ s'.disk = s.disk) ∨
      (a ≠ 0 ∧ a < s.sb.size.toNat ∧ marked s.sb s.disk a = false ∧
        s'.disk = claim s.sb s.disk a) := by
  rcases ha.cases with ⟨h0, hdisk, hfull⟩ | ⟨hlt, hclear, hdisk⟩
  · exact Or.inl ⟨h0, hfull, hdisk⟩
  · exact Or.inr ⟨(h.fixed a hlt hclear).1, hlt, hclear, hdisk⟩

/-! ## The block map -/

/-- What the code does that looks for a pointer `m` and finds that there is none: it allocates a
block for it, or there is no free block. -/
def Extended (sb : Superblock) (n m : Nat) (disk : Nat → Block) (d : Dinode) (a : Nat)
    (disk' : Nat → Block) (d' : Dinode) : Prop :=
  (a = 0 ∧ (∀ b, b < sb.size.toNat → marked sb disk b = true) ∧ disk' = disk ∧ d' = d) ∨
    (a ≠ 0 ∧ a < sb.size.toNat ∧ marked sb disk a = false ∧ Grown sb n m a disk d disk' d')

section BlockMap

variable {p : Pid} {i : Fin NINODE} {s : State} {n : Nat}

theorem noteChange_ballocAlloc_ends {α : Type} {rest : Nat → Prog State α} {Q : α → State → Prop}
    (hr : Allows E 2 s) (hQ : ∀ a s', Allocated i s a s' → Ensures E (rest a) Q s') :
    Ensures E (modify (fun s => s.noteChange p) >>= fun _ => ballocAlloc p >>= rest) Q s := by
  have hr' : Allows E 2 (s.noteChange p) := hr.imp_right fun hr => ⟨hr.logsize, hr.size, hr.outstanding⟩
  show Ensures E (ballocAlloc p >>= rest) Q (s.noteChange p)
  refine ensures_seq (ballocAlloc_ends (i := i) hr') fun a s' h => hQ a s' ?_
  obtain ⟨⟨hsb, hother, hentry, hout, hsize, hlh⟩, hdin, hcases⟩ := h
  exact ⟨⟨hsb, hother, hentry, hout, hsize, hlh⟩, hdin, hcases⟩

theorem bmapDirect_ends (h : Mapped s.sb n s.disk (s.din i)) {k : Nat} (hk : k ≤ NDIRECT)
    (hr : ptr s.disk (s.din i) k = 0 → Allows E 2 s) :
    Ensures E (bmapDirect p i k) (fun a s' => Framed i 2 s s' ∧
      (ptr s.disk (s.din i) k ≠ 0 → a = ptr s.disk (s.din i) k ∧ s' = s) ∧
      (ptr s.disk (s.din i) k = 0 →
        Extended s.sb n k s.disk (s.din i) a s'.disk (s'.din i))) s := by
  have hrefl : Framed i 2 s s := (Framed.refl i s).mono (by omega)
  rw [ptr_direct hk] at hr ⊢
  unfold bmapDirect
  show Ensures E (if (s.din i).addr k = 0 then _ else _) _ s
  by_cases h0 : (s.din i).addr k = 0
  · rw [if_pos h0]
    refine noteChange_ballocAlloc_ends (i := i) (hr h0) fun a s' hs' => ?_
    rcases hs'.zero_or h with ⟨rfl, hfull, hdisk⟩ | ⟨ha0, hlt, hclear, hdisk⟩
    · rw [if_pos rfl]
      exact ⟨hs'.framed, fun hne => absurd h0 hne, fun _ => Or.inl ⟨rfl, hfull, hdisk, hs'.din⟩⟩
    · have hset : (s'.modDin i fun d => d.setAddr k a).din i = (s.din i).setAddr k a := by
        rw [din_modDin, hs'.din]
      rw [if_neg ha0]
      refine ⟨?_, fun hne => absurd h0 hne, fun _ => Or.inr ⟨ha0, hlt, hclear, ?_⟩⟩
      · exact hs'.framed.trans (framed_modDin _)
      · rw [hset]
        show Grown _ _ _ _ _ _ s'.disk _
        rw [hdisk]
        exact h.setAddr hk h0 hlt hclear
  · rw [if_neg h0]
    exact ⟨hrefl, fun _ => ⟨rfl, rfl⟩, fun hz => absurd hz h0⟩

/-- The part of `bmap` that follows the indirect block. -/
theorem bmap_entry_ends (h : Mapped s.sb n s.disk (s.din i)) (hm : NDIRECT < m)
    (hmn : m < NPTR) (hind : (s.din i).addr NDIRECT ≠ 0)
    (hr : ptr s.disk (s.din i) m = 0 → Allows E 3 s) :
    Ensures E (do
      let data ← bread ((s.din i).addr NDIRECT)
      let addr := (data.u32 (4 * (m - (NDIRECT + 1)))).toNat
      if addr = 0 then
        modify fun s => s.noteChange p
        let addr ← ballocAlloc p
        if addr = 0 then pure 0
        else
          putBlock ((s.din i).addr NDIRECT) (data.putU32 (4 * (m - (NDIRECT + 1))) (UInt32.ofNat addr))
          logWrite p ((s.din i).addr NDIRECT)
          pure addr
      else pure addr) (fun a s' => Framed i 3 s s' ∧
        (ptr s.disk (s.din i) m ≠ 0 → a = ptr s.disk (s.din i) m ∧ s' = s) ∧
        (ptr s.disk (s.din i) m = 0 →
          Extended s.sb n m s.disk (s.din i) a s'.disk (s'.din i))) s := by
  apply ensures_seq (bread_ends _)
  intro data s1 hdata
  rw [hdata.1, hdata.2]
  rw [ptr_entry hm hmn hind] at hr ⊢
  generalize ((s.disk ((s.din i).addr NDIRECT)).u32 (4 * (m - (NDIRECT + 1)))).toNat = addr at hr ⊢
  by_cases h0 : addr = 0
  · rw [if_pos h0]
    refine noteChange_ballocAlloc_ends (i := i) ((hr h0).mono (by omega)) fun a s' hs' => ?_
    rcases hs'.zero_or h with ⟨rfl, hfull, hdisk⟩ | ⟨ha0, hlt, hclear, hdisk⟩
    · rw [if_pos rfl]
      exact ⟨hs'.framed.mono (by omega), fun hne => absurd h0 hne,
        fun _ => Or.inl ⟨rfl, hfull, hdisk, hs'.din⟩⟩
    · rw [if_neg ha0]
      refine putBlock_logWrite_ends (i := i) (hs'.framed.allows (hr h0)) fun s'' hframed hdin hdisk' _ => ?_
      refine ⟨hs'.framed.trans hframed, fun hne => absurd h0 hne, fun _ => Or.inr ⟨ha0, hlt, hclear, ?_⟩⟩
      rw [hdin, hs'.din, hdisk', hdisk]
      exact h.setEntry hm hmn hind hlt hclear
  · rw [if_neg h0]
    exact ⟨(Framed.refl i s).mono (by omega), fun _ => ⟨rfl, rfl⟩, fun hz => absurd hz h0⟩

end BlockMap

theorem ptrOf_ne_NDIRECT (bn : Nat) : ptrOf bn ≠ NDIRECT := by
  unfold ptrOf
  split <;> omega

theorem ptrOf_inj {bn bn' : Nat} : ptrOf bn' = ptrOf bn ↔ bn' = bn := by
  unfold ptrOf
  constructor
  · intro h
    split_ifs at h <;> omega
  · intro h
    rw [h]

theorem ptrOf_lt {bn : Nat} (h : bn < MAXFILE) : ptrOf bn < NPTR := by
  unfold ptrOf
  split <;> lia

/-- There are not enough free blocks for block `bn` of the file: none, or no two of them when the
indirect block is needed as well. -/
def Exhausted (sb : Superblock) (disk : Nat → Block) (d : Dinode) (bn : Nat) : Prop :=
  if bn < NDIRECT ∨ d.addr NDIRECT ≠ 0 then ∀ b, b < sb.size.toNat → marked sb disk b = true
  else ∀ b c, b < sb.size.toNat → c < sb.size.toNat → marked sb disk b = false →
    marked sb disk c = false → b = c

/-- What a `bmap` without success leaves: nothing has changed, or an indirect block was allocated that
has no entries yet. -/
def Spare (sb : Superblock) (disk : Nat → Block) (d : Dinode) (disk' : Nat → Block) (d' : Dinode) : Prop :=
  (disk' = disk ∧ d' = d) ∨ ∃ ind, ind < sb.size.toNat ∧ marked sb disk ind = false ∧
    d.addr NDIRECT = 0 ∧ disk' = claim sb disk ind ∧ d' = d.setAddr NDIRECT ind

/-- `bmap` has added block `bn` to a file, with the number `a`, or has failed with `a` zero. The
blocks that the file had are as they were. -/
structure Added (sb : Superblock) (n bn a : Nat) (disk : Nat → Block) (d : Dinode) (disk' : Nat → Block)
    (d' : Dinode) : Prop where
  mapped : Mapped sb n disk' d'
  ptr_eq : ∀ bn', ptr disk' d' (ptrOf bn') = if bn' = bn then a else ptr disk d (ptrOf bn')
  block : ∀ bn', ptr disk d (ptrOf bn') ≠ 0 →
    disk' (ptr disk d (ptrOf bn')) = disk (ptr disk d (ptrOf bn'))
  zero : a ≠ 0 → disk' a = Bytes.zero
  eq_zero_iff : a = 0 ↔ Exhausted sb disk d bn
  size : d'.size = d.size
  type : d'.type = d.type
  spare : a = 0 → Spare sb disk d disk' d'

section Adding

variable {sb : Superblock} {n bn a : Nat} {disk disk' disk'' : Nat → Block} {d d' d'' : Dinode}

theorem Added.of_eq_zero (h : Mapped sb n disk d) (h0 : ptr disk d (ptrOf bn) = 0)
    (he : Exhausted sb disk d bn) : Added sb n bn 0 disk d disk d where
  mapped := h
  ptr_eq bn' := by
    by_cases hbn : bn' = bn
    · rw [if_pos hbn, hbn, h0]
    · rw [if_neg hbn]
  block _ _ := rfl
  zero h := absurd rfl h
  eq_zero_iff := ⟨fun _ => he, fun _ => rfl⟩
  size := rfl
  type := rfl
  spare _ := Or.inl ⟨rfl, rfl⟩

/-- No other block than that of the pointer was needed. -/
theorem Extended.added (h : Mapped sb n disk d) (h0 : ptr disk d (ptrOf bn) = 0)
    (hone : bn < NDIRECT ∨ d.addr NDIRECT ≠ 0)
    (he : Extended sb n (ptrOf bn) disk d a disk' d') : Added sb n bn a disk d disk' d' := by
  rcases he with ⟨rfl, hfull, rfl, rfl⟩ | ⟨ha0, hlt, hclear, hg⟩
  · exact Added.of_eq_zero h h0 (by rw [Exhausted, if_pos hone]; exact hfull)
  · refine ⟨hg.mapped, fun bn' => ?_, fun bn' => hg.block _ (ptrOf_ne_NDIRECT bn'), fun _ => hg.zero, ?_,
      hg.size, hg.type, fun h => absurd h ha0⟩
    · rw [hg.ptr_eq]
      simp only [ptrOf_inj]
    · rw [Exhausted, if_pos hone]
      refine ⟨fun h => absurd h ha0, fun hfull => ?_⟩
      cases (hfull a hlt).symm.trans hclear

/-- The indirect block was allocated before the block itself. -/
theorem Grown.added {ind : Nat} (h0 : ptr disk d (ptrOf bn) = 0) (hbn : NDIRECT ≤ bn)
    (hnone : d.addr NDIRECT = 0) (hlt : ind < sb.size.toNat) (hclear : marked sb disk ind = false)
    (hg : Grown sb n NDIRECT ind disk d disk' d')
    (he : Extended sb n (ptrOf bn) disk' d' a disk'' d'') : Added sb n bn a disk d disk'' d'' := by
  have hptr : ∀ bn', ptr disk' d' (ptrOf bn') = ptr disk d (ptrOf bn') := by
    intro bn'
    rw [hg.ptr_eq, if_neg (ptrOf_ne_NDIRECT bn')]
  have htwo : ¬ (bn < NDIRECT ∨ d.addr NDIRECT ≠ 0) := by
    rintro (h | h)
    · omega
    · exact h hnone
  have hblock : ∀ bn', ptr disk d (ptrOf bn') ≠ 0 → disk' (ptr disk d (ptrOf bn')) = disk (ptr disk d (ptrOf bn')) :=
    fun bn' => hg.block _ (ptrOf_ne_NDIRECT bn')
  rcases he with ⟨rfl, hfull, rfl, rfl⟩ | ⟨ha0, halt, haclear, hg'⟩
  · refine ⟨hg.mapped, fun bn' => ?_, hblock, fun h => absurd rfl h, ?_, hg.size, hg.type, fun _ =>
      Or.inr ⟨ind, hlt, hclear, hnone, hg.direct (Nat.le_refl _)⟩⟩
    · rw [hptr]
      by_cases hb : bn' = bn
      · rw [if_pos hb, hb, h0]
      · rw [if_neg hb]
    · rw [Exhausted, if_neg htwo]
      -- every free block is the one that was taken for the indirect block
      have honly : ∀ b, b < sb.size.toNat → marked sb disk b = false → b = ind := by
        intro b hb hfree
        have hm := hfull b hb
        rw [hg.marked_eq b hb, hfree, Bool.or_false, decide_eq_true_eq] at hm
        exact hm
      exact ⟨fun _ b c hb hc hfb hfc => (honly b hb hfb).trans (honly c hc hfc).symm, fun _ => rfl⟩
  · refine ⟨hg'.mapped, fun bn' => ?_, fun bn' hne => ?_, fun _ => hg'.zero, ?_, hg'.size.trans hg.size,
      hg'.type.trans hg.type, fun h => absurd h ha0⟩
    · rw [hg'.ptr_eq, hptr]
      simp only [ptrOf_inj]
    · have hb := hg'.block _ (ptrOf_ne_NDIRECT bn') (by rw [hptr]; exact hne)
      rw [hptr] at hb
      rw [hb, hblock bn' hne]
    · rw [Exhausted, if_neg htwo]
      refine ⟨fun h => absurd h ha0, fun honly => ?_⟩
      rw [hg.marked_eq a halt, Bool.or_eq_false_iff, decide_eq_false_iff_not] at haclear
      exact absurd (honly a ind halt hlt haclear.2 hclear) haclear.1

end Adding

section Writing

variable {p : Pid} {i : Fin NINODE} {s : State} {n bn : Nat}

/-- `bmap` of block `bn` may need the indirect block in addition to the block itself. -/
def NeedsIndirect (d : Dinode) (bn : Nat) : Prop := ¬ (bn < NDIRECT ∨ d.addr NDIRECT ≠ 0)

instance (d : Dinode) (bn : Nat) : Decidable (NeedsIndirect d bn) := inferInstanceAs (Decidable (¬ _))

/-- At most `k` blocks have been marked. -/
def Marks (k : Nat) (s s' : State) : Prop :=
  ∃ l : List Nat, l.length ≤ k ∧ ∀ b, b < s.sb.size.toNat → marked s.sb s'.disk b = true →
    b ∈ l ∨ marked s.sb s.disk b = true

theorem Marks.of_disk_eq {s' : State} (k : Nat) (h : s'.disk = s.disk) : Marks k s s' :=
  ⟨[], Nat.zero_le k, fun b _ hb => .inr (by rwa [h] at hb)⟩

theorem Extended.marks {a : Nat} {s' : State} (h : Extended s.sb n m s.disk (s.din i) a s'.disk (s'.din i)) :
    Marks 1 s s' := by
  rcases h with ⟨-, -, hdisk, -⟩ | ⟨-, -, -, hg⟩
  · exact .of_disk_eq 1 hdisk
  · refine ⟨[a], Nat.le_refl 1, fun b hb hmark => ?_⟩
    rw [hg.marked_eq b hb, Bool.or_eq_true, decide_eq_true_eq] at hmark
    exact hmark.imp_left List.mem_singleton.mpr

/-- An indirect block stays. -/
theorem Extended.addr_ne_zero {a : Nat} {s' : State}
    (h : Extended s.sb n m s.disk (s.din i) a s'.disk (s'.din i)) (h0 : (s.din i).addr NDIRECT ≠ 0) :
    (s'.din i).addr NDIRECT ≠ 0 := by
  rcases h with ⟨-, -, -, hdin⟩ | ⟨ha, -, -, hg⟩
  · rwa [hdin]
  · have hptr := hg.ptr_eq NDIRECT
    rw [ptr_direct (Nat.le_refl _), ptr_direct (Nat.le_refl _)] at hptr
    rw [hptr]
    split
    · exact ha
    · exact h0

theorem Marks.trans {j k : Nat} {s' s'' : State} (h : Marks j s s') (h' : Marks k s' s'') (hsb : s'.sb = s.sb) :
    Marks (j + k) s s'' := by
  obtain ⟨l, hl, hmarks⟩ := h
  obtain ⟨l', hl', hmarks'⟩ := h'
  rw [hsb] at hmarks'
  refine ⟨l' ++ l, by rw [List.length_append]; omega, fun b hb hmark => ?_⟩
  rcases hmarks' b hb hmark with hin | hin
  · exact .inl (List.mem_append.mpr (.inl hin))
  · exact (hmarks b hb hin).imp_left fun hin => List.mem_append.mpr (.inr hin)

theorem bmap_ends (h : Mapped s.sb n s.disk (s.din i)) (hbn : bn < MAXFILE)
    (hr : ptr s.disk (s.din i) (ptrOf bn) = 0 → Allows E (if NeedsIndirect (s.din i) bn then 5 else 3) s) :
    Ensures E (bmap p i bn) (fun a s' => Framed i (if NeedsIndirect (s.din i) bn then 5 else 3) s s' ∧
      (ptr s.disk (s.din i) (ptrOf bn) ≠ 0 → a = ptr s.disk (s.din i) (ptrOf bn) ∧ s' = s) ∧
      (ptr s.disk (s.din i) (ptrOf bn) = 0 →
        Added s.sb n bn a s.disk (s.din i) s'.disk (s'.din i) ∧
          Marks (if NeedsIndirect (s.din i) bn then 2 else 1) s s' ∧
          ((s.din i).addr NDIRECT ≠ 0 → (s'.din i).addr NDIRECT ≠ 0))) s := by
  unfold bmap
  by_cases hdirect : bn < NDIRECT
  · have hneed : ¬ NeedsIndirect (s.din i) bn := fun hn => hn (.inl hdirect)
    have hptrOf : ptrOf bn = bn := if_pos hdirect
    simp only [if_neg hneed] at hr ⊢
    rw [if_pos hdirect]
    refine ensures_mono (bmapDirect_ends h (by omega) fun h0 =>
      (hr (by rwa [hptrOf])).mono (by omega)) ?_
    rintro a s' ⟨hframed, hold, hnew⟩
    refine ⟨hframed.mono (by omega), by rwa [hptrOf], fun h0 => ?_⟩
    have h0' : ptr s.disk (s.din i) bn = 0 := by rwa [hptrOf] at h0
    have he := hnew h0'
    refine ⟨?_, he.marks, he.addr_ne_zero⟩
    rw [← hptrOf] at he
    exact he.added h h0 (Or.inl (by omega))
  · have hptrOf : ptrOf bn = bn + 1 := if_neg hdirect
    have hoff : bn - NDIRECT = ptrOf bn - (NDIRECT + 1) := by omega
    rw [if_neg hdirect, if_pos (by lia), hoff]
    have hzero : (s.din i).addr NDIRECT = 0 → ptr s.disk (s.din i) (ptrOf bn) = 0 :=
      ptr_of_addr_eq_zero (by omega)
    have hless : Allows E (if NeedsIndirect (s.din i) bn then 5 else 3) s → Allows E 3 s := by
      intro hr
      split at hr
      · exact hr.mono (by omega)
      · exact hr
    apply ensures_seq (bmapDirect_ends h (Nat.le_refl NDIRECT) fun h0 =>
      (hless (hr (hzero ((ptr_direct (Nat.le_refl NDIRECT)).symm.trans h0)))).mono (by omega))
    rintro ind s1 ⟨hframed, hold, hnew⟩
    rw [ptr_direct (Nat.le_refl NDIRECT)] at hold hnew
    by_cases hind : (s.din i).addr NDIRECT = 0
    · have hneed : NeedsIndirect (s.din i) bn := by
        rintro (hb | hb)
        exacts [hdirect hb, hb hind]
      have h0 : ptr s.disk (s.din i) (ptrOf bn) = 0 := hzero hind
      simp only [if_pos hneed] at hr ⊢
      rcases hnew hind with ⟨rfl, hfull, hdisk, hdin⟩ | ⟨hind0, hlt, hclear, hg⟩
      · rw [if_pos rfl]
        refine ⟨hframed.mono (by omega), fun hne => absurd h0 hne, fun _ => ⟨?_, .of_disk_eq 2 hdisk, fun hne => absurd hind hne⟩⟩
        rw [hdisk, hdin]
        refine Added.of_eq_zero h h0 ?_
        rw [Exhausted, if_neg hneed]
        intro b c hb _ hfree
        cases (hfull b hb).symm.trans hfree
      · have haddr : (s1.din i).addr NDIRECT = ind := by
          rw [← @ptr_direct _ _ s1.disk (Nat.le_refl NDIRECT), hg.ptr_eq, if_pos rfl]
        have hmapped : Mapped s1.sb n s1.disk (s1.din i) := by rw [hframed.sb]; exact hg.mapped
        have h0' : ptr s1.disk (s1.din i) (ptrOf bn) = 0 := by
          rw [hg.ptr_eq, if_neg (ptrOf_ne_NDIRECT bn), h0]
        rw [if_neg hind0, ← haddr]
        refine ensures_mono (bmap_entry_ends hmapped (by omega) (ptrOf_lt hbn) (by rwa [haddr])
          fun _ => hframed.allows (hr h0)) ?_
        rintro a s2 ⟨hframed2, _, hnew2⟩
        have he := hnew2 h0'
        have hmarks : Marks 2 s s2 := (hnew hind).marks.trans he.marks hframed.sb
        rw [hframed.sb] at he
        exact ⟨hframed.trans hframed2, fun hne => absurd h0 hne,
          fun _ => ⟨hg.added h0 (by omega) hind hlt hclear he, hmarks, fun hne => absurd hind hne⟩⟩
    · have hneed : ¬ NeedsIndirect (s.din i) bn := fun hn => hn (.inr hind)
      obtain ⟨rfl, rfl⟩ := hold hind
      simp only [if_neg hneed] at hr ⊢
      rw [if_neg hind]
      refine ensures_mono (bmap_entry_ends h (by omega) (ptrOf_lt hbn) hind hr) ?_
      rintro a s2 ⟨hframed2, hold2, hnew2⟩
      exact ⟨hframed2, hold2, fun h0 =>
        ⟨(hnew2 h0).added h h0 (Or.inr hind), (hnew2 h0).marks, (hnew2 h0).addr_ne_zero⟩⟩

/-- What `bmap` does, whether the file had block `bn` or not: its result is the block, and the blocks
that the file had are as they were. -/
structure Reached (i : Fin NINODE) (n bn : Nat) (s : State) (a : Nat) (s' : State) : Prop where
  framed : Framed i 5 s s'
  mapped : Mapped s'.sb n s'.disk (s'.din i)
  ptr_eq : ptr s'.disk (s'.din i) (ptrOf bn) = a
  keep : ∀ bn', ptr s.disk (s.din i) (ptrOf bn') ≠ 0 →
    ptr s'.disk (s'.din i) (ptrOf bn') = ptr s.disk (s.din i) (ptrOf bn') ∧
      s'.disk (ptr s.disk (s.din i) (ptrOf bn')) = s.disk (ptr s.disk (s.din i) (ptrOf bn'))
  eq_zero_iff : a = 0 ↔
    ptr s.disk (s.din i) (ptrOf bn) = 0 ∧ Exhausted s.sb s.disk (s.din i) bn
  size : (s'.din i).size = (s.din i).size
  type : (s'.din i).type = (s.din i).type
  spare : a = 0 → Spare s.sb s.disk (s.din i) s'.disk (s'.din i)

theorem bmap_reached_ends (h : Mapped s.sb n s.disk (s.din i)) (hbn : bn < MAXFILE) (hr : Allows E 5 s) :
    Ensures E (bmap p i bn) (Reached i n bn s) s := by
  refine ensures_mono (bmap_ends h hbn fun _ => hr.mono (by split <;> omega)) ?_
  rintro a s' ⟨hframed', hold, hnew⟩
  have hframed : Framed i 5 s s' := hframed'.mono (by split <;> omega)
  by_cases h0 : ptr s.disk (s.din i) (ptrOf bn) = 0
  · have ha := (hnew h0).1
    refine ⟨hframed, ?_, ?_, fun bn' hne => ⟨?_, ha.block bn' hne⟩, ?_, ha.size, ha.type, ha.spare⟩
    · rw [hframed.sb]
      exact ha.mapped
    · rw [ha.ptr_eq, if_pos rfl]
    · have hother : bn' ≠ bn := fun he => hne (by rw [he, h0])
      rw [ha.ptr_eq, if_neg hother]
    · rw [ha.eq_zero_iff]
      exact ⟨fun he => ⟨h0, he⟩, fun he => he.2⟩
  · obtain ⟨rfl, rfl⟩ := hold h0
    exact ⟨hframed, h, rfl, fun _ _ => ⟨rfl, rfl⟩, ⟨fun he => absurd he h0, fun he => he.1⟩, rfl, rfl,
      fun _ => Or.inl ⟨rfl, rfl⟩⟩

theorem iupdate_ends (hr : Allows E 1 s) :
    Ensures E (iupdate p i) (fun _ s' => Framed i 1 s s' ∧ s'.din i = s.din i ∧
      s'.disk = update s.disk (inodeBlock s.sb (s.icache i).inum)
        ((s.din i).write (s.disk (inodeBlock s.sb (s.icache i).inum)) ((s.icache i).inum % IPB))) s := by
  unfold iupdate
  show Ensures E (bread _ >>= _) _ s
  apply ensures_seq (bread_ends _)
  intro data s1 hdata
  rw [hdata.1, hdata.2]
  show Ensures E (putBlock _ _ >>= fun _ => logWrite p _ >>= fun _ => pure ()) _ s
  refine putBlock_logWrite_ends (i := i) hr fun s' hframed hdin hdisk _ => ?_
  exact ⟨hframed, hdin, hdisk⟩

/-- The fields of an inode have been changed in the cache and on the disk, but not its addresses. -/
structure Synced (i : Fin NINODE) (f : Dinode → Dinode) (s s' : State) : Prop where
  framed : Framed i 1 s s'
  din : s'.din i = f (s.din i)
  mapped : Mapped s'.sb (s'.icache i).inum s'.disk (s'.din i)
  ptr_eq : ∀ m, ptr s'.disk (s'.din i) m = ptr s.disk (s.din i) m
  block : ∀ m, ptr s.disk (s.din i) m ≠ 0 →
    s'.disk (ptr s.disk (s.din i) m) = s.disk (ptr s.disk (s.din i) m)
  disk : s'.disk = update s.disk (inodeBlock s.sb (s.icache i).inum)
    ((f (s.din i)).write (s.disk (inodeBlock s.sb (s.icache i).inum)) ((s.icache i).inum % IPB))

theorem modDin_iupdate_ends {α : Type} {rest : Prog State α} {Q : α → State → Prop}
    {f : Dinode → Dinode} (h : Mapped s.sb (s.icache i).inum s.disk (s.din i))
    (hf : ∀ k, (f (s.din i)).addr k = (s.din i).addr k) (hr : Allows E 1 s)
    (hQ : ∀ s', Synced i f s s' → Ensures E rest Q s') :
    Ensures E (modify (fun s => s.modDin i f) >>= fun _ => iupdate p i >>= fun _ => rest) Q s := by
  have hframed1 : Framed i 0 s (s.modDin i f) := framed_modDin f
  show Ensures E (iupdate p i >>= fun _ => rest) Q (s.modDin i f)
  apply ensures_seq (iupdate_ends (hframed1.allows (by simpa using hr)))
  rintro _ s' ⟨hframed, hdin, hdisk⟩
  have hinum : ((s.modDin i f).icache i).inum = (s.icache i).inum := hframed1.inum
  have hinum' : (s'.icache i).inum = (s.icache i).inum := hframed.inum.trans hinum
  rw [din_modDin] at hdin
  rw [hinum, din_modDin] at hdisk
  have hptr : ∀ m, ptr s'.disk (s'.din i) m = ptr s.disk (s.din i) m := by
    rw [hdin, hdisk]
    exact Mapped.ptr_update hf h.inodeBlock_ne_indirect _
  refine hQ s' ⟨by simpa using hframed1.trans hframed, hdin, ?_, hptr, fun m hm => ?_, hdisk⟩
  · rw [hframed.sb, hinum', hdin, hdisk]
    exact h.put hf h.inodeBlock_ne_indirect h.split _
  · rw [hdisk]
    exact update_of_ne (h.inodeBlock_ne_ptr hm).symm _ _

end Writing

end Xv6.Fs
