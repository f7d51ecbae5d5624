import Xv6.Fs.DirMap

/-!
# Walking a path

What a path walk leaves: the disk, the log, the file table and the descriptors are as they were. A
walk takes and drops references to inodes, and a reference that is dropped does not reclaim the
inode, as every inode that a path names has a link.

The statements are about runs that return: a walk may also panic, for lack of a free entry in the
inode cache, or sleep for a lock that is not released.
-/

namespace Xv6.Fs

open Data Coop Prog Storage

/-- If the program returns, then with `Q`. -/
abbrev May {α : Type} (x : Prog State α) (Q : α → State → Prop) (s : State) : Prop :=
  x.ensures (fun _ => True) (fun _ _ => True) Q s

/-! ## Well-formed file systems -/

/-- Inode `n` is allocated. -/
def Live (sb : Superblock) (disk : Nat → Block) (n : Nat) : Prop :=
  n < sb.ninodes.toNat ∧ (dinodeAt sb disk n).type ≠ 0

/-- Inode `n` is allocated and has a link. -/
def Linked (sb : Superblock) (disk : Nat → Block) (n : Nat) : Prop :=
  Live sb disk n ∧ (dinodeAt sb disk n).nlink ≠ 0

/-- The `k`-th entry of a directory with the fields `d`. -/
def entryAt (disk : Nat → Block) (d : Dinode) (k : Nat) : Dirent :=
  Dirent.decode ((disk (ptr disk d (ptrOf (k / EPB)))).slice (DESIZE * (k % EPB)) DESIZE)

theorem slot_eq_entryAt (s : State) (dp : Fin NINODE) (k : Nat) :
    slot s dp k = entryAt s.disk (s.din dp) k := rfl

/-- A directory with `k` entries, none of which names an inode without a link. -/
structure DirOk (sb : Superblock) (disk : Nat → Block) (n k : Nat) : Prop where
  size : (dinodeAt sb disk n).size.toNat = DESIZE * k
  le : DESIZE * k ≤ MAXFILE * BSIZE
  filled : ∀ bn, bn * BSIZE < DESIZE * k → ptr disk (dinodeAt sb disk n) (ptrOf bn) ≠ 0
  linked : ∀ j, j < k → (entryAt disk (dinodeAt sb disk n) j).inum ≠ 0 →
    Linked sb disk (entryAt disk (dinodeAt sb disk n) j).inum.toNat

/-- A well-formed file system: the root and what a directory names have links, and the blocks of the
inodes, the inode region, the bitmap and the free blocks are apart from each other. -/
structure Sound (sb : Superblock) (disk : Nat → Block) : Prop where
  root : Linked sb disk ROOTINO
  dirs : ∀ n, Linked sb disk n → (dinodeAt sb disk n).type = T_DIR → ∃ k, DirOk sb disk n k
  mapped : ∀ n, Live sb disk n → Mapped sb n disk (dinodeAt sb disk n)
  apart : ∀ n n' m, Live sb disk n → n' < sb.ninodes.toNat → ptr disk (dinodeAt sb disk n) m ≠ 0 →
    ptr disk (dinodeAt sb disk n) m ≠ inodeBlock sb n'
  disjoint : ∀ n n' m m', Live sb disk n → Live sb disk n' → ptr disk (dinodeAt sb disk n) m ≠ 0 →
    ptr disk (dinodeAt sb disk n) m = ptr disk (dinodeAt sb disk n') m' → n = n'
  free : ∀ b n', b < sb.size.toNat → marked sb disk b = false → n' < sb.ninodes.toNat →
    b ≠ inodeBlock sb n'
  split : ∀ n' c, n' < sb.ninodes.toNat → c < sb.size.toNat → inodeBlock sb n' ≠ bitmapBlock sb c

instance (sb : Superblock) (disk : Nat → Block) (n : Nat) : Decidable (Live sb disk n) :=
  inferInstanceAs (Decidable (_ ∧ _))

instance (sb : Superblock) (disk : Nat → Block) (n : Nat) : Decidable (Linked sb disk n) :=
  inferInstanceAs (Decidable (_ ∧ _))

/-- A directory without an indirect block whose entries name inodes with a link. -/
def PlainDir (sb : Superblock) (disk : Nat → Block) (d : Dinode) : Prop :=
  ∃ k, k < NDIRECT * EPB ∧ d.size.toNat = DESIZE * k ∧ (∀ bn, bn < NDIRECT → bn * BSIZE < DESIZE * k → d.addr bn ≠ 0) ∧
    ∀ j, j < k → (entryAt disk d j).inum ≠ 0 → Linked sb disk (entryAt disk d j).inum.toNat

instance (sb : Superblock) (disk : Nat → Block) (d : Dinode) : Decidable (PlainDir sb disk d) :=
  inferInstanceAs (Decidable (∃ k, k < NDIRECT * EPB ∧ _))

/-- The block `a` of the inode `n` holds no inode, and no other inode has it. -/
def Own (sb : Superblock) (disk : Nat → Block) (n a : Nat) : Prop :=
  ∀ n', n' < sb.ninodes.toNat → a ≠ inodeBlock sb n' ∧ (Live sb disk n' → ∀ m', m' < NDIRECT →
    a = (dinodeAt sb disk n').addr m' → n = n')

instance (sb : Superblock) (disk : Nat → Block) (n a : Nat) : Decidable (Own sb disk n a) :=
  inferInstanceAs (Decidable (∀ n', n' < sb.ninodes.toNat → _))

def PlainInode (sb : Superblock) (disk : Nat → Block) (n : Nat) (d : Dinode) : Prop :=
  Direct sb n disk d ∧ (∀ m, m < NDIRECT → d.addr m ≠ 0 → Own sb disk n (d.addr m)) ∧
    (d.nlink ≠ 0 → d.type = T_DIR → PlainDir sb disk d)

instance (sb : Superblock) (disk : Nat → Block) (n : Nat) (d : Dinode) : Decidable (PlainInode sb disk n d) :=
  inferInstanceAs (Decidable (_ ∧ _ ∧ _))

/-- A well-formed file system without indirect blocks, as a finite check. -/
def Plain (sb : Superblock) (disk : Nat → Block) : Prop :=
  Linked sb disk ROOTINO ∧
    (∀ n, n < sb.ninodes.toNat → Live sb disk n → PlainInode sb disk n (dinodeAt sb disk n)) ∧
    (∀ b, b < sb.size.toNat → marked sb disk b = false → ∀ n', n' < sb.ninodes.toNat → b ≠ inodeBlock sb n') ∧
    ∀ n', n' < sb.ninodes.toNat → ∀ c, c < sb.size.toNat → inodeBlock sb n' ≠ bitmapBlock sb c

instance (sb : Superblock) (disk : Nat → Block) : Decidable (Plain sb disk) :=
  inferInstanceAs (Decidable (_ ∧ _ ∧ _ ∧ _))

theorem Plain.sound {sb : Superblock} {disk : Nat → Block} (h : Plain sb disk) : Sound sb disk := by
  obtain ⟨hroot, hlive, hfree, hsplit⟩ := h
  have hdirect : ∀ {n : Nat}, Live sb disk n → Direct sb n disk (dinodeAt sb disk n) := fun hn =>
    (hlive _ hn.1 hn).1
  refine ⟨hroot, fun n hn htype => ?_, fun n hn => (hdirect hn).mapped, fun n n' m hn hn' hm => ?_,
    fun n n' m m' hn hn' hm he => ?_, fun b n' hb hclear hn' => hfree b hb hclear n' hn',
    fun n' c hn' hc => hsplit n' hn' c hc⟩
  · obtain ⟨k, hk, hsize, hfilled, hlinked⟩ := (hlive n hn.1.1 hn.1).2.2 hn.2 htype
    refine ⟨k, hsize, by lia, fun bn hbn => ?_, hlinked⟩
    have hlt : bn < NDIRECT := by lia
    rw [ptrOf, if_pos hlt, ptr_direct hlt.le]
    exact hfilled bn hlt hbn
  · obtain ⟨hlt, he⟩ := (hdirect hn).ptr_eq hm
    rw [he] at hm ⊢
    exact ((hlive n hn.1 hn).2.1 m hlt hm n' hn').1
  · obtain ⟨hlt, hptr⟩ := (hdirect hn).ptr_eq hm
    obtain ⟨hlt', hptr'⟩ := (hdirect hn').ptr_eq (he ▸ hm)
    rw [hptr, hptr'] at he
    exact ((hlive n hn.1 hn).2.1 m hlt (hptr ▸ hm) n' hn'.1).2 hn' m' hlt' he

/-- The inode cache agrees with the disk. -/
structure Coherent (s : State) : Prop where
  live : ∀ i, 1 ≤ (s.icache i).ref → Live s.sb s.disk (s.icache i).inum
  din : ∀ i, 1 ≤ (s.icache i).ref → (s.icache i).valid = true →
    s.din i = dinodeAt s.sb s.disk (s.icache i).inum
  inj : ∀ i j, 1 ≤ (s.icache i).ref → 1 ≤ (s.icache j).ref → (s.icache i).inum = (s.icache j).inum →
    i = j

/-- A process has walked from `s₀` to `s`. It holds the references of the list, given as entries of
the cache with their inode numbers, and the fields of the inodes in the second list are loaded. -/
structure Walk (s₀ : State) (l : List (Fin NINODE × Nat)) (v : List (Fin NINODE)) (s : State) : Prop where
  sb : s.sb = s₀.sb
  disk : s.disk = s₀.disk
  log : s.log = s₀.log
  ftable : s.ftable = s₀.ftable
  ofile : s.ofile = s₀.ofile
  coherent : Coherent s
  refs : ∀ j, (l.map Prod.fst).count j ≤ (s.icache j).ref
  held : ∀ r, r ∈ l → (s.icache r.1).inum = r.2 ∧ Linked s₀.sb s₀.disk r.2
  valid : ∀ j, j ∈ v → j ∈ l.map Prod.fst ∧ (s.icache j).valid = true

/-- A wait changes the trace at most. -/
theorem exists_noteWait_eq (s : State) (p : Pid) (w : Wait) : ∃ f : Trace → Trace, s.noteWait p w = s.modTrace f := by
  unfold State.noteWait
  split
  · exact ⟨id, rfl⟩
  · exact ⟨_, rfl⟩

namespace Walk

variable {s₀ s s' : State} {l : List (Fin NINODE × Nat)} {v : List (Fin NINODE)} {p : Pid}
  {i ip : Fin NINODE} {n : Nat}

section

variable (h : Walk s₀ l v s)
include h

theorem one_le_ref {j : Fin NINODE} (hj : j ∈ l.map Prod.fst) :
    1 ≤ (s.icache j).ref := Nat.le_trans (List.one_le_count_iff.mpr hj) (h.refs j)

theorem got (hg : Got n ip s s') (hn : Linked s₀.sb s₀.disk n) : Walk s₀ ((ip, n) :: l) v s' := by
  have hkeep : ∀ j, 1 ≤ (s.icache j).ref → (s'.icache j).inum = (s.icache j).inum ∧
      (s'.icache j).valid = (s.icache j).valid ∧ s'.din j = s.din j ∧
        (s'.icache j).ref = (s.icache j).ref + if j = ip then 1 else 0 := by
    intro j hj
    unfold State.din
    by_cases he : j = ip
    · subst he
      rcases hg.cases with ⟨_, hself⟩ | ⟨hzero, _⟩
      · rw [hself, if_pos rfl]
        exact ⟨rfl, rfl, rfl, rfl⟩
      · omega
    · rw [hg.other j he, if_neg he]
      exact ⟨rfl, rfl, rfl, rfl⟩
  -- an entry in use was in use before, or it is the new one
  have hcases : ∀ j, 1 ≤ (s'.icache j).ref → 1 ≤ (s.icache j).ref ∨
      (j = ip ∧ (s'.icache j).valid = false ∧ (s'.icache j).inum = n ∧
        ∀ k, 1 ≤ (s.icache k).ref → (s.icache k).inum ≠ n) := by
    intro j hj
    by_cases he : j = ip
    · subst he
      rcases hg.cases with ⟨hone, _⟩ | ⟨_, _, hvalid, hfresh⟩
      · exact Or.inl hone
      · exact Or.inr ⟨rfl, hvalid, hg.inum_eq, hfresh⟩
    · rw [hg.other j he] at hj
      exact Or.inl hj
  refine ⟨hg.sb.trans h.sb, hg.disk.trans h.disk, hg.log.trans h.log, hg.ftable.trans h.ftable,
    hg.ofile.trans h.ofile, ⟨?_, ?_, ?_⟩, ?_, ?_, ?_⟩
  · intro j hj
    rw [hg.sb, hg.disk]
    rcases hcases j hj with hone | ⟨_, _, hinum, _⟩
    · rw [(hkeep j hone).1]
      exact h.coherent.live j hone
    · rw [hinum, h.sb, h.disk]
      exact hn.1
  · intro j hj hv
    rw [hg.sb, hg.disk]
    rcases hcases j hj with hone | ⟨_, hvalid, _⟩
    · obtain ⟨hinum, hval, hdin, _⟩ := hkeep j hone
      rw [hinum, hdin]
      exact h.coherent.din j hone (hval ▸ hv)
    · cases hvalid.symm.trans hv
  · intro j k hj hk he
    rcases hcases j hj with hone | ⟨rfl, _, hinum, hfresh⟩
    · rcases hcases k hk with hone' | ⟨rfl, _, hinum', hfresh'⟩
      · rw [(hkeep j hone).1, (hkeep k hone').1] at he
        exact h.coherent.inj j k hone hone' he
      · rw [(hkeep j hone).1, hinum'] at he
        exact absurd he (hfresh' j hone)
    · rcases hcases k hk with hone' | ⟨rfl, _⟩
      · rw [(hkeep k hone').1, hinum] at he
        exact absurd he.symm (hfresh k hone')
      · rfl
  · intro j
    have hcount := h.refs j
    rw [List.map_cons, List.count_cons]
    by_cases he : j = ip
    · subst he
      rw [if_pos (beq_self_eq_true _)]
      rcases hg.cases with ⟨hone, _⟩ | ⟨hzero, hone, _⟩
      · rw [(hkeep j hone).2.2.2, if_pos rfl]
        omega
      · omega
    · rw [if_neg (by simpa using Ne.symm he), hg.other j he]
      omega
  · intro r hr
    rcases List.mem_cons.mp hr with rfl | hr
    · exact ⟨hg.inum_eq, hn⟩
    · rw [(hkeep r.1 (h.one_le_ref (List.mem_map_of_mem hr))).1]
      exact h.held r hr
  · intro j hj
    obtain ⟨hmem, hval⟩ := h.valid j hj
    exact ⟨List.mem_cons_of_mem _ hmem, by rw [(hkeep j (h.one_le_ref hmem)).2.1, hval]⟩

theorem iget (hn : Linked s₀.sb s₀.disk n) : May (Fs.iget n) (fun ip s' => Walk s₀ ((ip, n) :: l) v s') s := by
  rw [Fs.iget, May, ensures_step]
  cases hget : igetStep n s with
  | ok r => exact h.got (got_of_igetStep hget) hn
  | error m => trivial

/-- A change of one entry that keeps what the walk says about it. -/
theorem modInode {f : Inode → Inode} {l' : List (Fin NINODE × Nat)} {v' : List (Fin NINODE)}
    (hinum : (f (s.icache i)).inum = (s.icache i).inum)
    (hdin : 1 ≤ (f (s.icache i)).ref → (f (s.icache i)).valid →
      (f (s.icache i)).din = dinodeAt s.sb s.disk (s.icache i).inum)
    (hpos : 1 ≤ (f (s.icache i)).ref → 1 ≤ (s.icache i).ref)
    (hrefs : ∀ j, (l'.map Prod.fst).count j ≤ if j = i then (f (s.icache i)).ref else (s.icache j).ref)
    (hheld : ∀ r, r ∈ l' → r ∈ l)
    (hvalid : ∀ j, j ∈ v' → j ∈ l'.map Prod.fst ∧
      (if j = i then (f (s.icache i)).valid else (s.icache j).valid)) :
    Walk s₀ l' v' (s.modInode i f) := by
  have hself : (s.modInode i f).icache i = f (s.icache i) := Function.update_self _ _ _
  have hother : ∀ j, j ≠ i → (s.modInode i f).icache j = s.icache j := fun j hj =>
    Function.update_of_ne hj _ _
  have hinum' : ∀ j, ((s.modInode i f).icache j).inum = (s.icache j).inum := by
    intro j
    by_cases he : j = i
    · rw [he, hself, hinum]
    · rw [hother j he]
  have hpos' : ∀ j, 1 ≤ ((s.modInode i f).icache j).ref → 1 ≤ (s.icache j).ref := by
    intro j hj
    by_cases he : j = i
    · rw [he, hself] at hj
      rw [he]
      exact hpos hj
    · rwa [hother j he] at hj
  refine ⟨h.sb, h.disk, h.log, h.ftable, h.ofile, ⟨?_, ?_, ?_⟩, ?_, ?_, ?_⟩
  · intro j hj
    rw [hinum']
    exact h.coherent.live j (hpos' j hj)
  · intro j hj hv
    rw [hinum']
    by_cases he : j = i
    · subst he
      rw [hself] at hj hv
      unfold State.din
      rw [hself]
      exact hdin hj hv
    · unfold State.din
      rw [hother j he] at hj hv ⊢
      exact h.coherent.din j hj hv
  · intro j k hj hk he
    rw [hinum', hinum'] at he
    exact h.coherent.inj j k (hpos' j hj) (hpos' k hk) he
  · intro j
    have hj := hrefs j
    by_cases he : j = i
    · rw [he, hself]
      rwa [if_pos he, he] at hj
    · rw [hother j he]
      rwa [if_neg he] at hj
  · intro r hr
    rw [hinum']
    exact h.held r (hheld r hr)
  · intro j hj
    obtain ⟨hmem, hv⟩ := hvalid j hj
    refine ⟨hmem, ?_⟩
    by_cases he : j = i
    · rw [he, hself]
      rwa [if_pos he] at hv
    · rw [hother j he]
      rwa [if_neg he] at hv

theorem modTrace (f : Trace → Trace) : Walk s₀ l v (s.modTrace f) :=
  ⟨h.sb, h.disk, h.log, h.ftable, h.ofile, ⟨h.coherent.live, h.coherent.din, h.coherent.inj⟩, h.refs,
    h.held, h.valid⟩

/-- The loaded fields of an inode are those on the disk. -/
theorem din_eq (hi : i ∈ v) (hin : (i, n) ∈ l) : s.din i = dinodeAt s₀.sb s₀.disk n := by
  obtain ⟨hmem, hv⟩ := h.valid i hi
  rw [h.coherent.din i (h.one_le_ref hmem) hv, (h.held _ hin).1, h.sb, h.disk]

end

theorem iput (h : Walk s₀ ((ip, n) :: l) v s) (hv : ∀ j, j ∈ v → j ∈ l.map Prod.fst) :
    May (Fs.iput p ip) (fun _ => Walk s₀ l v) s := by
  obtain ⟨hinum, hlinked⟩ := h.held (ip, n) List.mem_cons_self
  have href : 1 ≤ (s.icache ip).ref := h.one_le_ref (by simp)
  unfold Fs.iput
  show May (if _ then _ else _) _ s
  by_cases hkeep : (s.icache ip).ref ≠ 1 ∨ (s.icache ip).valid = false ∨ (s.icache ip).din.nlink ≠ 0
  · rw [if_pos hkeep]
    refine ensures_check_bind.mpr ⟨fun _ => ?_, fun _ => trivial⟩
    refine h.modInode rfl (fun _ hval => ?_) (fun _ => href) (fun j => ?_) (fun r hr => ?_) fun j hj => ?_
    · exact h.coherent.din ip href hval
    · have hcount := h.refs j
      rw [List.map_cons, List.count_cons] at hcount
      by_cases he : j = ip
      · subst he
        rw [if_pos rfl]
        rw [if_pos (beq_self_eq_true _)] at hcount
        show _ ≤ (s.icache j).ref - 1
        omega
      · rw [if_neg he]
        omega
    · exact List.mem_cons_of_mem _ hr
    · refine ⟨hv j hj, ?_⟩
      have hval := (h.valid j hj).2
      by_cases he : j = ip
      · rw [if_pos he, ← he]
        exact hval
      · rw [if_neg he]
        exact hval
  · -- an inode with a link is not reclaimed
    rw [not_or, not_or] at hkeep
    obtain ⟨_, hval, hnlink⟩ := hkeep
    have hdin := h.coherent.din ip href (by simpa using hval)
    rw [hinum, h.sb, h.disk] at hdin
    exact absurd (fun h0 => hlinked.2 (by rw [← hdin]; exact h0)) hnlink

section

variable (h : Walk s₀ l v s)
include h

theorem noteWait (w : Wait) : Walk s₀ l v (s.noteWait p w) := by
  obtain ⟨f, hf⟩ := exists_noteWait_eq s p w
  rw [hf]
  exact h.modTrace f

theorem waitFor (w : Wait) : May (Fs.waitFor p w) (fun _ => Walk s₀ l v) s := by
  unfold Fs.waitFor
  refine ensures_seq (R := fun _ => Walk s₀ l v) (h.noteWait w) ?_
  intro _ s1 h1
  exact ensures_await.mpr ⟨fun _ => h1, fun _ => ⟨trivial, trivial⟩⟩

theorem setLock (i : Fin NINODE) (q : Option Pid) : Walk s₀ l v (s.modInode i fun ip => { ip with lock := q }) := by
  refine h.modInode rfl (fun hone hval => h.coherent.din i hone hval) (fun h => h) (fun j => ?_) (fun r hr => hr)
    fun j hj => ⟨(h.valid j hj).1, ?_⟩
  · have hcount := h.refs j
    by_cases he : j = i
    · rw [if_pos he, ← he]
      exact hcount
    · rwa [if_neg he]
  · have hval := (h.valid j hj).2
    by_cases he : j = i
    · rw [if_pos he, ← he]
      exact hval
    · rwa [if_neg he]

theorem ilock (ip : Fin NINODE) (hip : ip ∈ l.map Prod.fst) :
    May (Fs.ilock p ip) (fun _ => Walk s₀ l (ip :: v)) s := by
  unfold Fs.ilock
  refine ensures_check_bind.mpr ⟨fun _ => ?_, fun _ => trivial⟩
  refine ensures_seq (R := fun _ => Walk s₀ l v) ?_ ?_
  · unfold acquireInode
    apply ensures_seq (h.waitFor (.inode ip))
    intro _ s2 h2
    exact (h2.modTrace _).setLock ip (some p)
  · intro _ s2 h2
    show May (if (s2.icache ip).valid = true then _ else _) _ s2
    by_cases hval : (s2.icache ip).valid = true
    · rw [if_pos hval]
      refine { h2 with valid := fun j hj => ?_ }
      rcases List.mem_cons.mp hj with rfl | hj
      · exact ⟨hip, hval⟩
      · exact h2.valid j hj
    · rw [if_neg hval]
      show May (bread _ >>= _) _ s2
      apply ensures_seq (ensures_of_total (bread_ends _))
      intro data s3 hdata
      rw [hdata.1, hdata.2]
      refine ensures_seq ?_ fun _ s4 h4 =>
        ensures_check.mpr ⟨fun _ => h4, fun _ => trivial⟩
      refine h2.modInode rfl (fun _ _ => rfl) (fun _ => h2.one_le_ref hip) (fun j => ?_) (fun r hr => hr)
        fun j hj => ?_
      · have hcount := h2.refs j
        by_cases he : j = ip
        · rw [if_pos he, ← he]
          exact hcount
        · rwa [if_neg he]
      · by_cases he : j = ip
        · rw [if_pos he, he]
          exact ⟨hip, rfl⟩
        · rw [if_neg he]
          rcases List.mem_cons.mp hj with hj | hj
          · exact absurd hj he
          · exact h2.valid j hj

theorem iunlock : May (Fs.iunlock p ip) (fun _ => Walk s₀ l v) s := by
  unfold Fs.iunlock
  exact ensures_check_bind.mpr ⟨fun _ => h.setLock ip none, fun _ => trivial⟩

end

theorem iunlockput (h : Walk s₀ ((ip, n) :: l) v s) (hv : ∀ j, j ∈ v → j ∈ l.map Prod.fst) :
    May (Fs.iunlockput p ip) (fun _ => Walk s₀ l v) s := by
  unfold Fs.iunlockput
  apply ensures_seq h.iunlock
  intro _ s1 h1
  exact h1.iput hv

section

variable (h : Walk s₀ l v s)
include h

theorem forget {v' : List (Fin NINODE)} (hv : ∀ j, j ∈ v' → j ∈ v) : Walk s₀ l v' s :=
  { h with valid := fun j hj => h.valid j (hv j hj) }

theorem perm {l' : List (Fin NINODE × Nat)} (hl : l'.Perm l) : Walk s₀ l' v s :=
  { h with
    refs := fun j => by rw [(hl.map Prod.fst).count_eq]; exact h.refs j
    held := fun r hr => h.held r (hl.subset hr)
    valid := fun j hj => ⟨(hl.map Prod.fst).mem_iff.mpr (h.valid j hj).1, (h.valid j hj).2⟩ }

/-- A loaded directory is one in the sense of `Dir`. -/
theorem dir (hsound : Sound s₀.sb s₀.disk) (hi : i ∈ v) (hin : (i, n) ∈ l)
    (htype : (s.din i).type = T_DIR) : ∃ k, DirOk s₀.sb s₀.disk n k ∧ Dir i k s := by
  have hdin := h.din_eq hi hin
  obtain ⟨hinum, hlinked⟩ := h.held _ hin
  rw [hdin] at htype
  obtain ⟨k, hk⟩ := hsound.dirs n hlinked htype
  refine ⟨k, hk, ?_, h.one_le_ref (h.valid i hi).1, ?_, ?_, hk.le, ?_⟩
  · rw [h.sb, hinum, h.disk, hdin]
    exact hsound.mapped n hlinked.1
  · rw [hdin, htype]
  · rw [hdin, hk.size]
  · rw [h.disk, hdin]
    exact hk.filled

/-- A search in a loaded directory finds an inode with a link. -/
theorem dirlookup (hsound : Sound s₀.sb s₀.disk) (hi : i ∈ v) (hin : (i, n) ∈ l) (name : List UInt8) :
    May (Fs.dirlookup p i name) (fun r s' => match r with
      | none => Walk s₀ l v s'
      | some (ip, off) => ∃ m, Walk s₀ ((ip, m) :: l) v s' ∧
        ∃ k j, Dir i k s' ∧ j < k ∧ off = DESIZE * j) s := by
  by_cases htype : (s.din i).type = T_DIR
  · obtain ⟨k, hok, hd⟩ := h.dir hsound hi hin htype
    have hdin := h.din_eq hi hin
    refine ensures_mono (dirlookup_ensures hd (fun inum => ?_) name) ?_
    · rw [Fs.iget, ensures_step]
      cases hget : igetStep inum s with
      | ok r => rfl
      | error m => trivial
    · intro r s' hf
      rcases r with _ | ⟨ip, off⟩
      · rw [hf.1]
        exact h
      · obtain ⟨j, _, hj, rfl, hm, hget⟩ := hf
        have hgot := got_of_igetStep hget
        have hlinked := hok.linked j hj
        rw [slot_eq_entryAt, h.disk, hdin] at hm hget hgot
        exact ⟨_, h.got hgot (hlinked hm.1), k, j, hgot.dir hd, hj, rfl⟩
  · unfold Fs.dirlookup
    have hne : ((s.din i).type == T_DIR) = false := by simpa using htype
    refine ensures_check_bind.mpr ⟨fun hc => ?_, fun _ => trivial⟩
    cases hne.symm.trans hc

end

/-- The walk along a path. It ends without a reference when it fails. -/
theorem dnamexFrom (hsound : Sound s₀.sb s₀.disk) {parent : Bool} {k : Nat} :
    ∀ {ip : Fin NINODE} {n : Nat} {path : List UInt8} {s : State}, Walk s₀ ((ip, n) :: l) v s →
      (∀ j, j ∈ v → j ∈ l.map Prod.fst) →
      May (Fs.dnamexFrom p parent k ip path) (fun r s' => match r with
        | none => Walk s₀ l v s'
        | some (ip', _) => ∃ m, Walk s₀ ((ip', m) :: l) v s') s := by
  have hdone : ∀ {ip : Fin NINODE} {n : Nat} {s : State}, Walk s₀ ((ip, n) :: l) v s →
      (∀ j, j ∈ v → j ∈ l.map Prod.fst) →
      May (if parent = true then do Fs.iput p ip; pure none else pure (some (ip, [])))
        (fun (r : Option (Fin NINODE × List UInt8)) s' => match r with
          | none => Walk s₀ l v s'
          | some (ip', _) => ∃ m, Walk s₀ ((ip', m) :: l) v s') s := by
    intro ip n s h hv
    by_cases hp : parent = true
    · rw [if_pos hp]
      apply ensures_seq (h.iput hv)
      intro _ s' h'
      exact h'
    · rw [if_neg hp]
      exact ⟨n, h⟩
  induction k with
  | zero =>
    intro ip n path s h hv
    exact hdone h hv
  | succ k ih =>
    intro ip n path s h hv
    unfold Fs.dnamexFrom
    cases hskip : skipelem path with
    | none => exact hdone h hv
    | some x =>
      obtain ⟨element, path'⟩ := x
      have hv' : ∀ j, j ∈ v → j ∈ ((ip, n) :: l).map Prod.fst := fun j hj => List.mem_cons_of_mem _ (hv j hj)
      apply ensures_seq (h.ilock ip (by simp))
      intro _ s1 h1
      show May (if _ then _ else _) _ s1
      by_cases htype : (s1.din ip).type ≠ T_DIR
      · rw [if_pos htype]
        apply ensures_seq ((h1.forget fun j => List.mem_cons_of_mem ip).iunlockput hv)
        intro _ s2 h2
        exact h2
      · rw [if_neg htype]
        by_cases hlast : parent = true ∧ path' = []
        · rw [if_pos hlast]
          apply ensures_seq (h1.forget fun j => List.mem_cons_of_mem ip).iunlock
          intro _ s2 h2
          exact ⟨n, h2⟩
        · rw [if_neg hlast]
          apply ensures_seq (h1.dirlookup hsound List.mem_cons_self List.mem_cons_self element)
          intro r s2 hr
          rcases r with _ | ⟨next, off⟩
          · apply ensures_seq ((Walk.forget hr fun j => List.mem_cons_of_mem ip).iunlockput hv)
            intro _ s3 h3
            exact h3
          · obtain ⟨m, h2, _⟩ := hr
            have h2' := (h2.perm (List.Perm.swap _ _ _)).forget fun j => List.mem_cons_of_mem ip
            apply ensures_seq (h2'.iunlockput fun j hj => List.mem_cons_of_mem _ (hv j hj))
            intro _ s3 h3
            exact ih h3 hv

theorem dnamex (h : Walk s₀ l v s) (hsound : Sound s₀.sb s₀.disk)
    (hv : ∀ j, j ∈ v → j ∈ l.map Prod.fst) (path : List UInt8) (parent : Bool) :
    May (Fs.dnamex p path parent) (fun r s' => match r with
      | none => Walk s₀ l v s'
      | some (ip, _) => ∃ m, Walk s₀ ((ip, m) :: l) v s') s := by
  apply ensures_seq (h.iget hsound.root)
  intro ip s1 h1
  exact dnamexFrom hsound h1 hv

theorem namei (h : Walk s₀ l v s) (hsound : Sound s₀.sb s₀.disk)
    (hv : ∀ j, j ∈ v → j ∈ l.map Prod.fst) (path : List UInt8) :
    May (Fs.namei p path) (fun r s' => match r with
      | none => Walk s₀ l v s'
      | some ip => ∃ m, Walk s₀ ((ip, m) :: l) v s') s := by
  apply ensures_seq (h.dnamex hsound hv path false)
  intro r s1 h1
  rcases r with _ | ⟨ip, _⟩
  · exact h1
  · exact h1

/-- A loaded directory is searched for entries besides the first two. -/
theorem isdirempty (h : Walk s₀ l v s) (hsound : Sound s₀.sb s₀.disk) (hi : i ∈ v) (hin : (i, n) ∈ l)
    (htype : (s.din i).type = T_DIR) : Total (Fs.isdirempty p i) (fun _ s' => s' = s) s := by
  obtain ⟨k, _, hd⟩ := h.dir hsound hi hin htype
  have hloop : ∀ c j, Total (isdiremptyFrom p i c (DESIZE * j)) (fun _ s' => s' = s) s := by
    intro c
    induction c with
    | zero => exact fun j => rfl
    | succ c ih =>
      intro j
      have hnext : DESIZE * j + DESIZE = DESIZE * (j + 1) := by lia
      unfold isdiremptyFrom
      show Total (if DESIZE * j < (s.din i).size.toNat then _ else _) _ s
      rw [hd.size]
      by_cases hj : j < k
      · rw [if_pos (by lia)]
        apply ensures_seq (readDirent_total hd hj _)
        intro e s1 he
        rw [he.2, hnext]
        by_cases hinum : e.inum ≠ 0
        · rw [if_pos hinum]
          exact rfl
        · rw [if_neg hinum]
          exact ih (j + 1)
      · rw [if_neg (by lia)]
        exact rfl
  exact hloop _ 2

end Walk

end Xv6.Fs
