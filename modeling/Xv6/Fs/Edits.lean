import Xv6.Fs.Walk

/-!
# Changes to one inode

A well-formed file system stays one when an inode is written back with other fields but the same
addresses, and when it gets an empty indirect block. That is all that a change of the link count and a
`dirlink` without success do to the disk.
-/

namespace Xv6.Fs

open Data Coop Prog Storage Function

/-! ## The files on a disk -/

/-- The byte at offset `k` of a file; a hole is full of zeros. -/
def byteAt (disk : Nat → Block) (d : Dinode) (k : Nat) : UInt8 :=
  if ptr disk d (ptrOf (k / BSIZE)) = 0 then 0 else (disk (ptr disk d (ptrOf (k / BSIZE)))).get (k % BSIZE)

/-- The allocated inodes and their types, sizes and bytes are the same on both disks, and so are the
link counts of the inodes with `K`. -/
structure AgreeOff (K : Nat → Prop) (sb : Superblock) (disk disk' : Nat → Block) : Prop where
  type : ∀ n, n < sb.ninodes.toNat → (dinodeAt sb disk' n).type = (dinodeAt sb disk n).type
  nlink : ∀ n, Live sb disk n → K n → (dinodeAt sb disk' n).nlink = (dinodeAt sb disk n).nlink
  major : ∀ n, Live sb disk n → (dinodeAt sb disk' n).major = (dinodeAt sb disk n).major
  minor : ∀ n, Live sb disk n → (dinodeAt sb disk' n).minor = (dinodeAt sb disk n).minor
  size : ∀ n, Live sb disk n → (dinodeAt sb disk' n).size = (dinodeAt sb disk n).size
  bytes : ∀ n k, Live sb disk n → k < (dinodeAt sb disk n).size.toNat →
    byteAt disk' (dinodeAt sb disk' n) k = byteAt disk (dinodeAt sb disk n) k

/-- The logical file system is the same: which inodes are allocated, their types, link counts, sizes
and bytes, and with them what the directories contain. -/
abbrev SameFiles (sb : Superblock) (disk disk' : Nat → Block) : Prop := AgreeOff (fun _ => True) sb disk disk'

theorem AgreeOff.refl (K : Nat → Prop) (sb : Superblock) (disk : Nat → Block) : AgreeOff K sb disk disk :=
  ⟨fun _ _ => rfl, fun _ _ _ => rfl, fun _ _ => rfl, fun _ _ => rfl, fun _ _ => rfl, fun _ _ _ _ => rfl⟩

theorem AgreeOff.trans {K : Nat → Prop} {sb : Superblock} {disk disk' disk'' : Nat → Block}
    (h : AgreeOff K sb disk disk') (h' : AgreeOff K sb disk' disk'') : AgreeOff K sb disk disk'' := by
  have hlive : ∀ n, Live sb disk n → Live sb disk' n := fun n hn => ⟨hn.1, by rw [h.type n hn.1]; exact hn.2⟩
  exact {
    type := fun n hn => (h'.type n hn).trans (h.type n hn)
    nlink := fun n hn hk => (h'.nlink n (hlive n hn) hk).trans (h.nlink n hn hk)
    major := fun n hn => (h'.major n (hlive n hn)).trans (h.major n hn)
    minor := fun n hn => (h'.minor n (hlive n hn)).trans (h.minor n hn)
    size := fun n hn => (h'.size n (hlive n hn)).trans (h.size n hn)
    bytes := fun n k hn hk =>
      (h'.bytes n k (hlive n hn) (by rw [h.size n hn]; exact hk)).trans (h.bytes n k hn hk) }

/-- Inode `n` was written back with other fields. It may have got an empty indirect block; the other
inodes and all blocks that the inodes have are as they were. -/
structure Edit (sb : Superblock) (n : Nat) (disk disk' : Nat → Block) : Prop where
  other : ∀ n', n' < sb.ninodes.toNat → n' ≠ n → dinodeAt sb disk' n' = dinodeAt sb disk n'
  type : (dinodeAt sb disk' n).type = (dinodeAt sb disk n).type
  size : (dinodeAt sb disk' n).size = (dinodeAt sb disk n).size
  major : (dinodeAt sb disk' n).major = (dinodeAt sb disk n).major
  minor : (dinodeAt sb disk' n).minor = (dinodeAt sb disk n).minor
  nlink : (dinodeAt sb disk' n).nlink = 0 ↔ (dinodeAt sb disk n).nlink = 0
  block : ∀ n' m, Live sb disk n' → ptr disk (dinodeAt sb disk n') m ≠ 0 →
    disk' (ptr disk (dinodeAt sb disk n') m) = disk (ptr disk (dinodeAt sb disk n') m)
  ptr_eq : ∀ n' m, Live sb disk n' → ptr disk' (dinodeAt sb disk' n') m = ptr disk (dinodeAt sb disk n') m ∨
    (n' = n ∧ m = NDIRECT ∧ ptr disk' (dinodeAt sb disk' n') m < sb.size.toNat ∧
      marked sb disk (ptr disk' (dinodeAt sb disk' n') m) = false ∧
      marked sb disk' (ptr disk' (dinodeAt sb disk' n') m) = true)
  marked : ∀ b, b < sb.size.toNat → marked sb disk b = true → marked sb disk' b = true

variable {n' : Nat}

namespace Edit

variable {sb : Superblock} {n : Nat} {disk disk' : Nat → Block}

section

variable (h : Edit sb n disk disk')
include h

theorem type_eq (hn : n' < sb.ninodes.toNat) : (dinodeAt sb disk' n').type = (dinodeAt sb disk n').type := by
  by_cases he : n' = n
  · rw [he, h.type]
  · rw [h.other n' hn he]

theorem live_iff (n' : Nat) : Live sb disk' n' ↔ Live sb disk n' := by
  constructor
  · rintro ⟨hn, ht⟩
    exact ⟨hn, by rwa [h.type_eq hn] at ht⟩
  · rintro ⟨hn, ht⟩
    exact ⟨hn, by rwa [h.type_eq hn]⟩

theorem linked_iff (n' : Nat) : Linked sb disk' n' ↔ Linked sb disk n' := by
  unfold Linked
  rw [h.live_iff]
  refine and_congr_right fun hlive => ?_
  by_cases he : n' = n
  · rw [he]
    exact not_congr h.nlink
  · rw [h.other n' hlive.1 he]

theorem size_eq (hn : n' < sb.ninodes.toNat) : (dinodeAt sb disk' n').size = (dinodeAt sb disk n').size := by
  by_cases he : n' = n
  · rw [he, h.size]
  · rw [h.other n' hn he]

theorem unmarked {b : Nat} (hb : b < sb.size.toNat)
    (hfree : Fs.marked sb disk' b = false) : Fs.marked sb disk b = false := by
  by_contra hm
  cases (h.marked b hb (by simpa using hm)).symm.trans hfree

/-- The blocks of the contents have the numbers that they had. -/
theorem ptrOf_eq (hlive : Live sb disk n') (bn : Nat) :
    ptr disk' (dinodeAt sb disk' n') (ptrOf bn) = ptr disk (dinodeAt sb disk n') (ptrOf bn) := by
  rcases h.ptr_eq n' (ptrOf bn) hlive with he | ⟨_, hm, _⟩
  · exact he
  · exact absurd hm (ptrOf_ne_NDIRECT bn)

theorem same {K : Nat → Prop}
    (hK : K n → (dinodeAt sb disk' n).nlink = (dinodeAt sb disk n).nlink) : AgreeOff K sb disk disk' where
  type _ hn := h.type_eq hn
  nlink n' hn hk := by
    by_cases he : n' = n
    · rw [he] at hk ⊢
      exact hK hk
    · rw [h.other n' hn.1 he]
  major n' hn := by
    by_cases he : n' = n
    · rw [he, h.major]
    · rw [h.other n' hn.1 he]
  minor n' hn := by
    by_cases he : n' = n
    · rw [he, h.minor]
    · rw [h.other n' hn.1 he]
  size _ hn := h.size_eq hn.1
  bytes n' k hn _ := by
    unfold byteAt
    rw [h.ptrOf_eq hn]
    by_cases h0 : ptr disk (dinodeAt sb disk n') (ptrOf (k / BSIZE)) = 0
    · rw [if_pos h0, if_pos h0]
    · rw [if_neg h0, if_neg h0, h.block n' _ hn h0]

theorem entryAt_eq (hlive : Live sb disk n') {k : Nat} (hptr : ptr disk (dinodeAt sb disk n') (ptrOf (k / EPB)) ≠ 0) :
    entryAt disk' (dinodeAt sb disk' n') k = entryAt disk (dinodeAt sb disk n') k := by
  unfold entryAt
  rw [h.ptrOf_eq hlive, h.block n' _ hlive hptr]

theorem dirOk {k : Nat} (hlive : Live sb disk n') (hok : DirOk sb disk n' k) :
    DirOk sb disk' n' k where
  size := by rw [h.size_eq hlive.1]; exact hok.size
  le := hok.le
  filled bn hbn := by rw [h.ptrOf_eq hlive]; exact hok.filled bn hbn
  linked j hj := by
    rw [h.entryAt_eq hlive (hok.filled _ (by lia)), h.linked_iff]
    exact hok.linked j hj

theorem mapped (hsound : Sound sb disk) (hlive : Live sb disk n') : Mapped sb n' disk' (dinodeAt sb disk' n') := by
  have hm := hsound.mapped n' hlive
  have hnew : ∀ {m m'}, ptr disk (dinodeAt sb disk n') m' ≠ 0 →
      Fs.marked sb disk (ptr disk' (dinodeAt sb disk' n') m) = false →
      ptr disk' (dinodeAt sb disk' n') m ≠ ptr disk (dinodeAt sb disk n') m' := by
    intro m m' hne hclear he
    rw [he, hm.set m' hne] at hclear
    cases hclear
  refine ⟨fun b hb hfree => hm.fixed b hb (h.unmarked hb hfree), hm.split, ?_, ?_, ?_, ?_⟩
  · intro m h0
    rcases h.ptr_eq n' m hlive with he | ⟨_, _, hlt, _⟩
    · rw [he] at h0 ⊢
      exact hm.lt m h0
    · exact hlt
  · intro m h0
    rcases h.ptr_eq n' m hlive with he | ⟨_, _, _, _, hset⟩
    · rw [he] at h0 ⊢
      exact h.marked _ (hm.lt m h0) (hm.set m h0)
    · exact hset
  · intro m h0
    rcases h.ptr_eq n' m hlive with he | ⟨_, _, hlt, hclear, _⟩
    · rw [he] at h0 ⊢
      exact hm.apart m h0
    · exact (hm.fixed _ hlt hclear).2
  · intro m m' h0 heq
    rcases h.ptr_eq n' m hlive with he | ⟨_, hmn, _, hclear, _⟩
    · rcases h.ptr_eq n' m' hlive with he' | ⟨_, _, _, hclear', _⟩
      · rw [he] at h0
        rw [he, he'] at heq
        exact hm.inj m m' h0 heq
      · rw [he] at h0 heq
        exact absurd heq.symm (hnew h0 hclear')
    · rcases h.ptr_eq n' m' hlive with he' | ⟨_, hmn', _⟩
      · rw [heq, he'] at h0
        exact absurd (heq.trans he') (hnew h0 hclear)
      · rw [hmn, hmn']

theorem sound (hsound : Sound sb disk) : Sound sb disk' where
  root := (h.linked_iff _).mpr hsound.root
  dirs n' hlinked htype := by
    have hl := (h.linked_iff n').mp hlinked
    rw [h.type_eq hl.1.1] at htype
    obtain ⟨k, hk⟩ := hsound.dirs n' hl htype
    exact ⟨k, h.dirOk hl.1 hk⟩
  mapped n' hlive := h.mapped hsound ((h.live_iff n').mp hlive)
  apart n' k m hlive hk h0 := by
    have hl := (h.live_iff n').mp hlive
    rcases h.ptr_eq n' m hl with he | ⟨_, _, hlt, hclear, _⟩
    · rw [he] at h0 ⊢
      exact hsound.apart n' k m hl hk h0
    · exact hsound.free _ k hlt hclear hk
  disjoint n1 n2 m1 m2 h1 h2 h0 heq := by
    have hl1 := (h.live_iff n1).mp h1
    have hl2 := (h.live_iff n2).mp h2
    rcases h.ptr_eq n1 m1 hl1 with he1 | ⟨hn1, _, _, hclear1, _⟩
    · rcases h.ptr_eq n2 m2 hl2 with he2 | ⟨_, _, _, hclear2, _⟩
      · rw [he1] at h0
        rw [he1, he2] at heq
        exact hsound.disjoint n1 n2 m1 m2 hl1 hl2 h0 heq
      · rw [he1] at h0 heq
        rw [← heq, (hsound.mapped n1 hl1).set m1 h0] at hclear2
        cases hclear2
    · rcases h.ptr_eq n2 m2 hl2 with he2 | ⟨hn2, _⟩
      · rw [heq, he2] at h0
        rw [heq, he2, (hsound.mapped n2 hl2).set m2 h0] at hclear1
        cases hclear1
      · rw [hn1, hn2]
  free b k hb hfree hk := hsound.free b k hb (h.unmarked hb hfree) hk
  split := hsound.split

end

end Edit

theorem dinodeAt_write (sb : Superblock) (disk : Nat → Block) (d : Dinode) (n n' : Nat) :
    dinodeAt sb (update disk (inodeBlock sb n)
      (d.write (disk (inodeBlock sb n)) (n % IPB))) n' = if n' = n then d else dinodeAt sb disk n' := by
  have hmod : n % IPB < IPB := Nat.mod_lt _ (by decide)
  unfold dinodeAt
  by_cases he : n' = n
  · rw [if_pos he, he, update_self, Dinode.read_write_self hmod]
  · rw [if_neg he]
    by_cases hb : inodeBlock sb n' = inodeBlock sb n
    · have hdiv : n' / IPB = n / IPB := by unfold inodeBlock at hb; omega
      rw [hb, update_self, Dinode.read_write_of_ne (by lia)]
    · rw [update_of_ne hb]

section Edits

variable {sb : Superblock} {n : Nat} {disk : Nat → Block} {d' : Dinode}

section

variable (hsound : Sound sb disk)
include hsound

/-- A disk on which an inode is written keeps the blocks of the inodes. -/
theorem Sound.block_write {m : Nat} (hn : n < sb.ninodes.toNat)
    (hlive : Live sb disk n') (h0 : ptr disk (dinodeAt sb disk n') m ≠ 0) (disk1 : Nat → Block) (x : Block) :
    update disk1 (inodeBlock sb n) x (ptr disk (dinodeAt sb disk n') m) =
      disk1 (ptr disk (dinodeAt sb disk n') m) :=
  update_of_ne (hsound.apart n' n m hlive hn h0) _ _

theorem Sound.marked_write (hn : n < sb.ninodes.toNat) {b : Nat}
    (hb : b < sb.size.toNat) (disk1 : Nat → Block) (x : Block) :
    marked sb (update disk1 (inodeBlock sb n) x) b = marked sb disk1 b := by
  unfold marked
  rw [update_of_ne (hsound.split n b hn hb).symm]

/-- An inode is written back with the same addresses. -/
theorem Sound.rewrite (hlive : Live sb disk n)
    (haddr : ∀ k, d'.addr k = (dinodeAt sb disk n).addr k) (htype : d'.type = (dinodeAt sb disk n).type)
    (hsize : d'.size = (dinodeAt sb disk n).size) (hmajor : d'.major = (dinodeAt sb disk n).major)
    (hminor : d'.minor = (dinodeAt sb disk n).minor)
    (hnlink : d'.nlink = 0 ↔ (dinodeAt sb disk n).nlink = 0) :
    Edit sb n disk (update disk (inodeBlock sb n)
      (d'.write (disk (inodeBlock sb n)) (n % IPB))) := by
  have hself : dinodeAt sb (update disk (inodeBlock sb n)
      (d'.write (disk (inodeBlock sb n)) (n % IPB))) n = d' := by rw [dinodeAt_write, if_pos rfl]
  refine ⟨fun n' _ hne => ?_, ?_, ?_, ?_, ?_, ?_, fun n' m hl h0 => ?_, fun n' m hl => Or.inl ?_,
    fun b hb hm => ?_⟩
  · rw [dinodeAt_write, if_neg hne]
  · rw [hself, htype]
  · rw [hself, hsize]
  · rw [hself, hmajor]
  · rw [hself, hminor]
  · rw [hself]
    exact hnlink
  · exact hsound.block_write hlive.1 hl h0 disk _
  · have haddr' : ∀ k, (dinodeAt sb (update disk (inodeBlock sb n)
        (d'.write (disk (inodeBlock sb n)) (n % IPB))) n').addr k = (dinodeAt sb disk n').addr k := by
      intro k
      rw [dinodeAt_write]
      by_cases he : n' = n
      · rw [if_pos he, haddr, he]
      · rw [if_neg he]
    refine ptr_congr haddr' (fun hind => ?_) m
    rw [← @ptr_direct _ NDIRECT disk (Nat.le_refl _)] at hind ⊢
    exact hsound.block_write hlive.1 hl hind disk _
  · rw [hsound.marked_write hlive.1 hb]
    exact hm

/-- An inode is written back with a new, empty indirect block. -/
theorem Sound.addIndirect (hlive : Live sb disk n) {ind : Nat}
    (hlt : ind < sb.size.toNat) (hclear : marked sb disk ind = false)
    (hnone : (dinodeAt sb disk n).addr NDIRECT = 0) :
    Edit sb n disk (update (claim sb disk ind) (inodeBlock sb n)
      (((dinodeAt sb disk n).setAddr NDIRECT ind).write (claim sb disk ind (inodeBlock sb n)) (n % IPB))) := by
  have hg := (hsound.mapped n hlive).setAddr (Nat.le_refl _) hnone hlt hclear
  have hindEq : ((dinodeAt sb disk n).setAddr NDIRECT ind).addr NDIRECT = ind := by
    rw [← @ptr_direct _ NDIRECT (claim sb disk ind) (Nat.le_refl _), hg.ptr_eq, if_pos rfl]
  have hclaim : ∀ n', n' < sb.ninodes.toNat → dinodeAt sb (claim sb disk ind) n' = dinodeAt sb disk n' := by
    intro n' hn'
    unfold dinodeAt
    rw [claim_of_ne (hsound.free ind n' hlt hclear hn').symm (hsound.split n' ind hn' hlt)]
  have hat : ∀ n', n' < sb.ninodes.toNat → dinodeAt sb (update (claim sb disk ind) (inodeBlock sb n)
      (((dinodeAt sb disk n).setAddr NDIRECT ind).write (claim sb disk ind (inodeBlock sb n)) (n % IPB))) n' =
        if n' = n then (dinodeAt sb disk n).setAddr NDIRECT ind else dinodeAt sb disk n' := by
    intro n' hn'
    rw [dinodeAt_write, hclaim n' hn']
  have hself := hat n hlive.1
  rw [if_pos rfl] at hself
  refine ⟨fun n' hn' hne => ?_, ?_, ?_, ?_, ?_, ?_, fun n' m hl h0 => ?_, fun n' m hl => ?_, fun b hb hm => ?_⟩
  · rw [hat n' hn', if_neg hne]
  · rw [hself, Dinode.setAddr_type]
  · rw [hself, Dinode.setAddr_size]
  · rw [hself]
    rfl
  · rw [hself]
    rfl
  · rw [hself, Dinode.setAddr_nlink]
  · rw [hsound.block_write hlive.1 hl h0]
    exact (hsound.mapped n' hl).claim_ptr hlt hclear h0
  · rw [hat n' hl.1]
    by_cases he : n' = n
    · subst he
      rw [if_pos rfl]
      have hkeep : ptr (update (claim sb disk ind) (inodeBlock sb n')
          (((dinodeAt sb disk n').setAddr NDIRECT ind).write (claim sb disk ind (inodeBlock sb n')) (n' % IPB)))
          ((dinodeAt sb disk n').setAddr NDIRECT ind) m =
            ptr (claim sb disk ind) ((dinodeAt sb disk n').setAddr NDIRECT ind) m := by
        refine ptr_congr (fun _ => rfl) (fun _ => ?_) m
        rw [hindEq]
        exact update_of_ne (hsound.free ind n' hlt hclear hl.1) _ _
      rw [hkeep, hg.ptr_eq]
      by_cases hm : m = NDIRECT
      · refine Or.inr ⟨rfl, hm, ?_⟩
        rw [if_pos hm]
        refine ⟨hlt, hclear, ?_⟩
        rw [hsound.marked_write hl.1 hlt, hg.marked_eq ind hlt]
        simp
      · rw [if_neg hm]
        exact Or.inl rfl
    · rw [if_neg he]
      left
      rw [← (hsound.mapped n' hl).ptr_claim hlt hclear m]
      refine ptr_congr (fun _ => rfl) (fun hind => ?_) m
      rw [← @ptr_direct _ NDIRECT disk (Nat.le_refl _)] at hind ⊢
      exact hsound.block_write hlive.1 hl hind _ _
  · rw [hsound.marked_write hlive.1 hb, hg.marked_eq b hb, hm, Bool.or_true]

end

end Edits

/-! ## Changes along a walk -/

section Changes

variable {s0 s s' : State} {l : List (Fin NINODE × Nat)} {v : List (Fin NINODE)} {p : Pid}
  {i ip dp : Fin NINODE} {n : Nat}

/-- A walk may be said to begin where it has come to. -/
theorem Walk.rebase (h : Walk s0 l v s) : Walk s l v s where
  sb := rfl
  disk := rfl
  log := rfl
  ftable := rfl
  ofile := rfl
  coherent := h.coherent
  refs := h.refs
  held r hr := by rw [h.sb, h.disk]; exact h.held r hr
  valid := h.valid

/-- The inode in slot `i` was changed in the cache and on the disk. -/
theorem Walk.edit {k : Nat} (h : Walk s0 l v s) (hedit : Edit s.sb n s.disk s'.disk)
    (hframed : Framed i k s s') (href : 1 ≤ (s.icache i).ref) (hinum : (s.icache i).inum = n)
    (hdin : s'.din i = dinodeAt s.sb s'.disk n) : Walk s' l v s' := by
  have hsame : ∀ j, (s'.icache j).inum = (s.icache j).inum ∧ (s'.icache j).ref = (s.icache j).ref ∧
      (s'.icache j).valid = (s.icache j).valid := by
    intro j
    by_cases he : j = i
    · rw [he, hframed.entry]
      exact ⟨rfl, rfl, rfl⟩
    · rw [hframed.other j he]
      exact ⟨rfl, rfl, rfl⟩
  refine ⟨rfl, rfl, rfl, rfl, rfl, ⟨?_, ?_, ?_⟩, ?_, ?_, ?_⟩
  · intro j hj
    rw [(hsame j).2.1] at hj
    rw [(hsame j).1, hframed.sb, hedit.live_iff]
    exact h.coherent.live j hj
  · intro j hj hv
    rw [(hsame j).2.1] at hj
    rw [(hsame j).2.2] at hv
    rw [(hsame j).1, hframed.sb]
    by_cases he : j = i
    · rw [he, hdin, hinum]
    · have hne : (s.icache j).inum ≠ n := fun hn => he (h.coherent.inj j i hj href (hn.trans hinum.symm))
      rw [hedit.other _ (h.coherent.live j hj).1 hne, ← h.coherent.din j hj hv]
      unfold State.din
      rw [hframed.other j he]
  · intro j j' hj hj' he
    rw [(hsame j).2.1] at hj
    rw [(hsame j').2.1] at hj'
    rw [(hsame j).1, (hsame j').1] at he
    exact h.coherent.inj j j' hj hj' he
  · intro j
    rw [(hsame j).2.1]
    exact h.refs j
  · intro r hr
    obtain ⟨hnum, hlinked⟩ := h.held r hr
    rw [(hsame r.1).1, hframed.sb, hedit.linked_iff, h.sb, h.disk]
    exact ⟨hnum, hlinked⟩
  · intro j hj
    rw [(hsame j).2.2]
    exact h.valid j hj

theorem Walk.setNlink {α : Type} {rest : Prog State α} {Q : α → State → Prop} (h : Walk s0 l v s)
    (hsound : Sound s.sb s.disk) (hi : i ∈ v) (hin : (i, n) ∈ l) (f : UInt16 → UInt16)
    (hf : f (dinodeAt s.sb s.disk n).nlink ≠ 0)
    (hQ : ∀ s', Walk s' l v s' → Sound s'.sb s'.disk → Framed i 1 s s' →
      AgreeOff (· ≠ n) s.sb s.disk s'.disk →
      (dinodeAt s.sb s'.disk n).nlink = f (dinodeAt s.sb s.disk n).nlink → May rest Q s') :
    May (modify (fun s => s.modDin i fun d => { d with nlink := f d.nlink }) >>= fun _ =>
      iupdate p i >>= fun _ => rest) Q s := by
  have hdin := (h.rebase).din_eq hi hin
  obtain ⟨hinum, hlinked⟩ := h.rebase.held _ hin
  have href : 1 ≤ (s.icache i).ref := h.one_le_ref (h.valid i hi).1
  have hframed1 : Framed i 0 s (s.modDin i fun d => { d with nlink := f d.nlink }) := framed_modDin _
  have hinum1 : ((s.modDin i fun d => { d with nlink := f d.nlink }).icache i).inum = n :=
    hframed1.inum.trans hinum
  refine ensures_seq (R := fun _ s1 => s1 = s.modDin i fun d => { d with nlink := f d.nlink }) rfl ?_
  rintro _ s1 rfl
  apply ensures_seq (iupdate_ends (.inl fun _ _ => trivial))
  rintro _ s' ⟨hframed, hdin', hdisk⟩
  rw [hinum1, din_modDin, hdin] at hdisk
  rw [din_modDin, hdin] at hdin'
  have hframed' : Framed i 1 s s' := by simpa using hframed1.trans hframed
  have hedit : Edit s.sb n s.disk s'.disk := by
    rw [show s'.disk = _ from hdisk]
    refine hsound.rewrite hlinked.1 (fun _ => rfl) rfl rfl rfl rfl ?_
    exact ⟨fun h0 => absurd h0 hf, fun h0 => absurd h0 hlinked.2⟩
  have hat : dinodeAt s.sb s'.disk n = { dinodeAt s.sb s.disk n with nlink := f (dinodeAt s.sb s.disk n).nlink } := by
    rw [show s'.disk = _ from hdisk]
    refine (dinodeAt_write _ _ _ _ _).trans ?_
    rw [if_pos rfl]
  refine hQ s' (h.edit hedit hframed' href hinum ?_) ?_ hframed' (hedit.same fun hk => absurd rfl hk) ?_
  · rw [hat, hdin']
  · rw [hframed'.sb]
    exact hedit.sound hsound
  · rw [hat]

/-- A `dirlink` that fails leaves the file system as it was. -/
theorem Walk.dirlink (h : Walk s0 l v s) (hsound : Sound s0.sb s0.disk) (hr : Room 7 s) (hi : i ∈ v)
    (hin : (i, n) ∈ l) (name : List UInt8) (inum : Nat) :
    May (Fs.dirlink p i name inum) (fun ok s' => ok = false → Walk s' l v s' ∧ s'.sb = s0.sb ∧
      Sound s'.sb s'.disk ∧ SameFiles s0.sb s0.disk s'.disk) s := by
  have hsame : ∀ {s1 : State}, Walk s0 l v s1 → Walk s1 l v s1 ∧ s1.sb = s0.sb ∧
      Sound s1.sb s1.disk ∧ SameFiles s0.sb s0.disk s1.disk := by
    intro s1 h1
    refine ⟨h1.rebase, h1.sb, ?_, ?_⟩
    · rw [h1.sb, h1.disk]
      exact hsound
    · rw [h1.disk]
      exact AgreeOff.refl _ _ _
  unfold Fs.dirlink
  by_cases htype : (s.din i).type = T_DIR
  · apply ensures_seq (h.dirlookup hsound hi hin name)
    intro r s1 hr1
    rcases r with _ | ⟨ip, off⟩
    · have h1 : Walk s0 l v s1 := hr1
      have hdin1 : s1.din i = s.din i := (h1.din_eq hi hin).trans (h.din_eq hi hin).symm
      obtain ⟨k, _, hd⟩ := h1.dir hsound hi hin (by rw [hdin1, htype])
      obtain ⟨hinum, hlinked⟩ := h1.held _ hin
      have hroom : Room 7 s1 := by
        refine ⟨?_, ?_, ?_⟩ <;> rw [h1.log, ← h.log]
        · exact hr.logsize
        · exact hr.size
        · exact hr.outstanding
      have hfuel : k < 0 + ((s1.din i).size.toNat + 1) := by
        rw [hd.size]
        lia
      show May (dirlinkSlot p i _ (DESIZE * 0) >>= _) _ s1
      apply ensures_seq (ensures_of_total (dirlinkSlot_total hd (Nat.zero_le k) hfuel))
      rintro off s2 ⟨rfl, j, rfl, hv⟩
      have hjk : j ≤ k := by
        rcases hv.2.2 with hj | hj <;> omega
      apply ensures_seq (ensures_of_total (writei_total hd hroom hjk
        (length_encode_entry (UInt16.ofNat inum) name)))
      intro r s' hw hfail
      rcases hw.spare (beq_eq_false_iff_ne.mp hfail) with rfl | ⟨disk, hspare, hdisk⟩
      · exact hsame h1
      · have hdin := h1.din_eq hi hin
        have hsound2 : Sound s2.sb s2.disk := by
          rw [h1.sb, h1.disk]
          exact hsound
        rw [← h1.sb, ← h1.disk] at hdin hlinked
        rw [hinum] at hdisk
        -- either way the inode is the only one that was written
        have hfields : Edit s2.sb n s2.disk s'.disk ∧ s'.din i = dinodeAt s2.sb s'.disk n ∧
            (s'.din i).nlink = (dinodeAt s2.sb s2.disk n).nlink := by
          rw [hdin] at hspare
          rcases hspare with ⟨rfl, hd'⟩ | ⟨ind, hlt, hclear, hnone, rfl, hd'⟩
          · rw [hd'] at hdisk
            rw [hdisk, hd']
            refine ⟨hsound2.rewrite hlinked.1 (fun _ => rfl) rfl rfl rfl rfl Iff.rfl, ?_, rfl⟩
            rw [dinodeAt_write, if_pos rfl]
          · rw [hd'] at hdisk
            rw [hdisk, hd']
            refine ⟨hsound2.addIndirect hlinked.1 hlt hclear hnone, ?_, rfl⟩
            rw [dinodeAt_write, if_pos rfl]
        obtain ⟨hedit, hdin', hnlink⟩ := hfields
        refine ⟨h1.edit hedit hw.framed hd.ref hinum hdin', hw.framed.sb.trans h1.sb, ?_, ?_⟩
        · rw [hw.framed.sb]
          exact hedit.sound hsound2
        · rw [← h1.sb, ← h1.disk]
          exact hedit.same fun _ => by rw [← hdin', hnlink]
    · obtain ⟨m, h1, _⟩ := hr1
      apply ensures_seq (h1.iput fun j hj => (h.valid j hj).1)
      intro _ s2 h2 _
      exact hsame h2
  · refine ensures_seq (R := fun _ _ => False) ?_ fun _ _ hf => hf.elim
    have hne : ((s.din i).type == T_DIR) = false := by simpa using htype
    unfold Fs.dirlookup
    refine ensures_check_bind.mpr ⟨fun hc => ?_, fun _ => trivial⟩
    cases hne.symm.trans hc

end Changes

end Xv6.Fs
