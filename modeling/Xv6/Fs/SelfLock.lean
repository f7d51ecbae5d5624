import Xv6.Fs.Reclaim
import Xv6.Fs.Resolution

/-!
# Locks of the own process

A process sleeps for good when it waits for an inode that it has locked itself. Two functions do so:

* the failure path of `create`, which calls `iput` on the new inode while it is locked;
* `unlink_helper`, which locks the inode that it has found before it looks at its name. When the last component names
  the directory itself, as `.` does everywhere and `..` in the root directory, that inode is the locked directory.

In all other cases the functions end, `create` without a trace when it has failed.
-/

namespace Xv6.Fs

open Data Coop Prog Storage Function
open List (not_mem_nil mem_cons_self)

/-! ## Creating -/

section Create

variable {p : Pid} {s0 s s' : State} {ip : Fin NINODE} {n : Nat}

theorem Returns.may {α : Type} {x : Prog State α} {Q : α → State → Prop} (h : Returns s0 x Q s) : May x Q s :=
  ensures_weaken h fun _ _ _ => trivial

theorem Visit.createExisting (h : Visit p s0 [(ip, n)] [] s) (type : UInt16) :
    May (Fs.createExisting p type ip) (fun r s' => r = none → Visit p s0 [] [] s') s := by
  unfold Fs.createExisting
  apply ensures_seq (ensures_of_total (h.ilock ip (by simp) not_mem_nil))
  intro _ s1 h1
  show May (if _ then _ else _) _ s1
  split
  · exact nofun
  · apply ensures_seq (ensures_of_total (h1.iunlockput not_mem_nil fun j hj => absurd hj not_mem_nil))
    intro _ s2 h2 _
    exact h2

/-- An attempt that ends with the result 0 has given everything back. -/
theorem Visit.createTry (h : Visit p s0 [] [] s) (hsound : Sound s0.sb s0.disk) (path : List UInt8)
    (type major minor : UInt16) :
    May (Fs.createTry p path type major minor) (fun a s' => a = .result none → Visit p s0 [] [] s') s := by
  unfold Fs.createTry
  apply ensures_seq (h.dnamex hsound path true).may
  intro r s1 hr
  rcases r with _ | ⟨dp, name⟩
  · exact fun _ => hr.2
  · obtain ⟨m, ht, h1⟩ := hr
    have hparent : resolveParent s0.sb s0.disk ROOTINO (elements path) = some (m, name) := ht
    have hdir := (resolveParent_type hparent).1
    apply ensures_seq (ensures_of_total (h1.ilock dp (by simp) not_mem_nil))
    intro _ s2 h2
    have htype := h2.type_eq mem_cons_self mem_cons_self
    apply ensures_seq (h2.dirlookup hsound (by simp) mem_cons_self mem_cons_self (htype.trans hdir) name).may
    intro r s3 hr
    rcases r with _ | ⟨ip, off⟩
    · obtain ⟨_, h3⟩ := hr
      apply ensures_seq (h3.coherent.iallocAlloc type)
      intro r s4 hr
      rcases r with _ | ip
      · obtain rfl : s4 = s3 := hr
        apply ensures_seq (ensures_of_total (h3.iunlockput not_mem_nil fun j hj => absurd hj not_mem_nil))
        intro _ s5 h5 _
        exact h5
      · apply ensures_seq (ensures_of_forall (fun _ _ => trivial) _ _)
        intro ok s5 _
        cases ok with
        | false => exact nofun
        | true =>
          apply ensures_seq (ensures_of_forall (fun _ _ => trivial) _ _)
          intro _ s6 _ hr
          cases hr
    · obtain ⟨m', _, h3⟩ := hr
      apply ensures_seq (ensures_of_total ((h3.perm (List.Perm.swap _ _ _)).iunlockput not_mem_nil
        fun j hj => absurd hj not_mem_nil))
      intro _ s4 h4
      apply ensures_seq (h4.createExisting type)
      intro r s5 h5 hr
      cases hr
      exact h5 rfl

end Create

/-- `create` ends cleanly: it returns 0, no inode is locked, the references are as before, and so is the whole disk,
with the inodes, the link count of the parent and the entries of the directories. -/
def EndsClean (p : Pid) (path : List UInt8) (type major minor : UInt16) (s : State) : Prop :=
  ∃ s', (create p path type major minor).run s = .done none s' ∧ Untouched s s' ∧ ∀ n, refcount s' n = refcount s n

/-- An operation is open on a file system whose root directory is empty and that has no free block. -/
def fullDisk : State :=
  { fullTable with
    disk := update fullTable.disk 2 ((fullTable.disk 2).setBit 3)
    log := { size := 30, outstanding := 1 } }

/-- The full disk, and what `create` does on it: `/` has no last component, and for `/a` there is an inode but no block
for its entry. -/
theorem fullDisk_parts :
    Plain fullDisk.sb fullDisk.disk ∧
    ((createTry 1 [SLASH] T_FILE 0 0).run fullDisk).returned (fun a _ => a matches .result none) = true ∧
    ((createTry 1 [SLASH, 97] T_FILE 0 0).run fullDisk).returned (fun a _ => a matches .unlinked ..) = true ∧
    (match (create 1 [SLASH, 97] T_FILE 0 0).run fullDisk with
      | .stuck s' => decide (s'.trace.waits 1 = some (.inode 1) ∧ (s'.icache 1).lock = some 1)
      | _ => false) = true := by decide +kernel

theorem consistent_fullDisk : Consistent fullDisk where
  sound := fullDisk_parts.1.sound
  coherent := ⟨fun _ hi => absurd hi (Nat.not_succ_le_zero 0), fun _ hi => absurd hi (Nat.not_succ_le_zero 0),
    fun _ _ hi => absurd hi (Nat.not_succ_le_zero 0)⟩
  unlocked := fun _ => rfl

section Unlink

variable {p : Pid} {s0 s s' : State} {ip dp : Fin NINODE} {n m k : Nat}

/-- An entry that there is is written over. -/
theorem writei_slot_total (h : Dir dp n s) (hr : Room 2 s) {j : Nat} (hj : j < n) (l : List UInt8) :
    Total (writei p dp (.ofList l) (UInt32.ofNat (DESIZE * j)) (UInt32.ofNat DESIZE))
      (fun r s' => r = some DESIZE ∧ Framed dp 2 s s' ∧ s'.din dp = s.din dp ∧ ∃ x y, s'.disk =
        update (update s.disk (ptr s.disk (s.din dp) (ptrOf (j / EPB))) x)
          (inodeBlock s.sb (s.icache dp).inum) y) s := by
  have hle : DESIZE * (j + 1) ≤ MAXFILE * BSIZE := by have := h.le; lia
  have hjle : DESIZE * j ≤ MAXFILE * BSIZE := by lia
  have hoff := toNat_off hjle
  have hend := toNat_end hjle
  have hptr : ptr s.disk (s.din dp) (ptrOf (j / EPB)) ≠ 0 := h.filled _ (by lia)
  have hind := h.mapped.ptr_ne_indirect (ptrOf_ne_NDIRECT _) hptr
  have hmeta := h.mapped.apart _ hptr
  have hkeep : ¬ (s.din dp).size < UInt32.ofNat (DESIZE * j) + UInt32.ofNat DESIZE := by
    rw [UInt32.lt_iff_toNat_lt, hend, h.size]
    lia
  unfold writei
  show Total (if _ then _ else _) _ s
  rw [if_neg (h.in_range (Nat.le_of_lt hj)), hend, if_neg (by lia), hoff]
  show Total (writeLoop p dp _ (15 + 1) 0 (DESIZE * j) DESIZE >>= _) _ s
  unfold writeLoop
  rw [if_pos (by lia), slot_block, Prog.bind_assoc]
  apply ensures_seq (bmap_ends h.mapped (by lia) fun h0 => absurd h0 hptr)
  rintro a s1 ⟨_, hold, _⟩
  obtain ⟨rfl, rfl⟩ := hold hptr
  rw [if_neg hptr, Prog.bind_assoc]
  apply ensures_seq (bread_ends _)
  rintro data s2 ⟨rfl, rfl⟩
  rw [piece_slot, slot_offset]
  have hcopied : (Source.ofList l).copied 0 DESIZE = DESIZE := rfl
  simp only [if_pos hcopied, Prog.bind_assoc]
  refine putBlock_logWrite_ends (i := dp) (.inr (hr.mono (by omega))) fun s3 hframed hdin hdisk _ => ?_
  show Total (writeLoop p dp _ (14 + 1) _ _ 0 >>= _) _ s3
  unfold writeLoop
  rw [if_neg (by omega)]
  have hmapped : Mapped s3.sb (s3.icache dp).inum s3.disk (s3.din dp) := by
    rw [hframed.sb, hframed.inum, hdin, hdisk]
    exact h.mapped.put (fun _ => rfl) hind (fun b hb he => hmeta (Or.inr ⟨b, hb, he⟩)) _
  refine modDin_iupdate_ends hmapped (fun _ => rfl) (.inr (hframed.room hr)) fun s' hsynced => ?_
  refine ⟨rfl, hframed.trans hsynced.framed, ?_, ?_⟩
  · rw [hsynced.din, hdin]
    show Dinode.mk _ _ _ _ (if (s2.din dp).size < UInt32.ofNat (DESIZE * j) + UInt32.ofNat DESIZE then _ else _) _ = _
    rw [if_neg hkeep]
  · have hdisk' := hsynced.disk
    rw [hdisk, hframed.sb, hframed.inum] at hdisk'
    exact ⟨_, _, hdisk'⟩

/-- The inode `n` keeps its blocks when an entry of the directory `m` is written over. -/
theorem Sound.mapped_write {sb : Superblock} {disk : Nat → Block} (h : Sound sb disk) (hn : Live sb disk n)
    (hm : Live sb disk m) (hne : n ≠ m) {k : Nat} (h0 : ptr disk (dinodeAt sb disk m) k ≠ 0) (x y : Block) :
    Mapped sb n (update (update disk (ptr disk (dinodeAt sb disk m) k) x) (inodeBlock sb m) y)
      (dinodeAt sb disk n) := by
  have hind : ∀ {c : Nat}, (∀ k', ptr disk (dinodeAt sb disk n) k' ≠ 0 → c ≠ ptr disk (dinodeAt sb disk n) k') →
      (dinodeAt sb disk n).addr NDIRECT ≠ 0 → c ≠ (dinodeAt sb disk n).addr NDIRECT := by
    intro c hc hind
    rw [← @ptr_direct _ _ disk (Nat.le_refl NDIRECT)] at hind ⊢
    exact hc NDIRECT hind
  have hmap := (h.mapped n hn).put (fun _ => rfl) (hind fun k' _ he => hne (h.disjoint m n k k' hm hn h0 he).symm)
    (fun b hb he => (h.mapped m hm).apart k h0 (Or.inr ⟨b, hb, he⟩)) x
  exact hmap.put (fun _ => rfl) (hind fun k' hk' he => h.apart n m k' hn hm.1 hk' he.symm)
    (fun b hb => h.split m b hm.1 hb) y

theorem Visit.unlinkBad (h : Visit p s0 [(ip, n), (dp, m)] [ip, dp] s) (hne : ip ≠ dp) :
    Total (Fs.unlinkBad p ip dp) (fun ok s' => ok = false ∧ Visit p s0 [] [] s') s := by
  have hip : ip ∉ [dp] := by simpa using hne
  apply ensures_seq (h.iunlockput hip fun j hj => by simpa using hj)
  intro _ s1 h1
  apply ensures_seq (h1.iunlockput not_mem_nil fun j hj => absurd hj not_mem_nil)
  intro _ s2 h2
  exact ⟨rfl, h2⟩

/-- The end of `unlink_helper`, which clears the entry at offset `off` and drops the link. -/
def unlinkClear (p : Pid) (ip dp : Fin NINODE) (off : Nat) : Prog State Bool := do
  let r ← writei p dp (.ofList (List.replicate DESIZE 0)) (UInt32.ofNat off) (UInt32.ofNat DESIZE)
  if r = some DESIZE then
    modify fun s => s.modDin ip fun d => { d with nlink := d.nlink - 1 }
    iupdate p ip
    iunlockput p ip
    iunlockput p dp
    pure true
  else unlinkBad p ip dp

theorem iunlock_total {i : Fin NINODE} (hlock : (s.icache i).lock = some p) (hone : 1 ≤ (s.icache i).ref) :
    Total (iunlock p i) (fun _ s' => s' = s.modInode i fun e => { e with lock := none }) s := by
  unfold iunlock
  exact ensures_check_bind.mpr ⟨fun _ => rfl, fun hc => absurd ⟨hlock, hone⟩ (of_decide_eq_false hc)⟩

theorem Visit.unlinkClear (h : Visit p s0 [(ip, n), (dp, m)] [ip, dp] s) (hsound : Sound s0.sb s0.disk)
    (hr : Room (bitmapCount s0.sb + 6) s0) (hne : n ≠ m) (hd : Dir dp k s) {j : Nat} (hj : j < k) :
    Total (Fs.unlinkClear p ip dp (DESIZE * j)) (fun _ _ => True) s := by
  have hip : (ip, n) ∈ [(ip, n), (dp, m)] := by simp
  have hdp : (dp, m) ∈ [(ip, n), (dp, m)] := by simp
  obtain ⟨hinum, hlinked⟩ := h.held _ hip
  obtain ⟨hinum', hlinked'⟩ := h.held _ hdp
  have hdin := h.din_eq (i := ip) (by simp) hip
  have hdin' := h.din_eq (i := dp) (by simp) hdp
  have hslot : ip ≠ dp := by
    rintro rfl
    exact hne (hinum.symm.trans hinum')
  have hroom : Room (2 + (1 + (bitmapCount s0.sb + 3))) s := by
    refine ⟨?_, ?_, ?_⟩ <;> rw [h.log]
    · have := hr.logsize
      omega
    · have := hr.size
      push_cast at this ⊢
      omega
    · exact hr.outstanding
  have hlock : ∀ i, i ∈ [ip, dp] → (s.icache i).lock = some p := fun i hi => by rw [h.locks, if_pos hi]
  unfold Fs.unlinkClear
  apply ensures_seq (writei_slot_total hd (hroom.mono (by omega)) hj _)
  rintro r s1 ⟨rfl, hframed, hdin1, x, y, hdisk⟩
  rw [if_pos rfl]
  have hip1 : s1.icache ip = s.icache ip := hframed.other ip hslot
  have hdp1 : s1.icache dp = s.icache dp := by
    rw [hframed.entry, hdin1]
    rfl
  have hmapped : Mapped s1.sb (s1.icache ip).inum s1.disk (s1.din ip) := by
    have hdinip : s1.din ip = dinodeAt s0.sb s0.disk n := (congrArg Inode.din hip1).trans hdin
    have hptr : ptr s0.disk (dinodeAt s0.sb s0.disk m) (ptrOf (j / EPB)) ≠ 0 := by
      have := hd.filled (j / EPB) (by lia)
      rwa [h.disk, hdin'] at this
    rw [hframed.sb, h.sb, hip1, hinum, hdinip, hdisk, h.sb, hinum', h.disk, hdin']
    exact hsound.mapped_write hlinked.1 hlinked'.1 hne hptr x y
  refine modDin_iupdate_ends hmapped (fun _ => rfl) (.inr ((hframed.room hroom).mono (by omega))) fun s2 hsynced => ?_
  have hroom2 := hsynced.framed.room (hframed.room hroom)
  have hip2 : (s2.icache ip).lock = some p ∧ 1 ≤ (s2.icache ip).ref := by
    rw [hsynced.framed.entry, hip1]
    exact ⟨hlock ip (by simp), h.one_le_ref (by simp)⟩
  unfold Fs.iunlockput
  rw [Prog.bind_assoc]
  apply ensures_seq (iunlock_total hip2.1 hip2.2)
  rintro _ s3 rfl
  have hself := State.modInode_self s2 ip fun e => { e with lock := none }
  have hsb2 : s2.sb = s0.sb := by rw [hsynced.framed.sb, hframed.sb, h.sb]
  have hample : Ample 3 s2 := by
    apply Room.ample
    rw [hsb2]
    exact hroom2
  have hput := iput_reclaim_total (p := p)
    (s := s2.modInode ip fun e => { e with lock := none }) (by rw [hself]; exact hip2.2) (by rw [hself])
    (by unfold State.din; rw [hself]; exact hsynced.mapped) (hample.congr rfl rfl)
  apply ensures_seq hput
  rintro _ s4 ⟨_, hother⟩
  have hdp4 : s4.icache dp = s.icache dp := by
    rw [hother dp hslot.symm, State.modInode_of_ne _ _ hslot.symm, hsynced.framed.other dp hslot.symm, hdp1]
  have hone : 1 ≤ (s.icache dp).ref := h.one_le_ref (by simp)
  rw [Prog.bind_assoc]
  apply ensures_seq (iunlock_total (by rw [hdp4]; exact hlock dp (by simp)) (by rw [hdp4]; exact hone))
  rintro _ s5 rfl
  have hself' := State.modInode_self s4 dp fun e => { e with lock := none }
  refine ensures_seq (iput_total (by rw [hself', hdp4]; exact hone) fun _ => ?_) fun _ _ _ => trivial
  unfold State.din
  rw [hself', hdp4]
  show (s.din dp).nlink ≠ 0
  rw [hdin']
  exact hlinked'.2

/-- The last component names the directory in which it is looked up. -/
def NamesItself (sb : Superblock) (disk : Nat → Block) (path : List UInt8) : Prop :=
  ∃ m name, resolveParent sb disk ROOTINO (elements path) = some (m, name) ∧ descend sb disk m name = some m

/-- The last component is `.` or `..`. -/
def EndsInDots (path : List UInt8) : Prop :=
  (components path).getLast? = some [DOT] ∨ (components path).getLast? = some [DOT, DOT]

theorem EndsInDots.name {path name : List UInt8} (h : EndsInDots path) (hname : (elements path).getLast? = some name) :
    nameEq name [DOT] = true ∨ nameEq name [DOT, DOT] = true := by
  unfold elements at hname
  rw [List.getLast?_map] at hname
  rcases h with h | h
  · rw [h] at hname
    cases hname
    exact Or.inl rfl
  · rw [h] at hname
    cases hname
    exact Or.inr rfl

theorem Visit.unlinkHelper (h : Visit p s0 [] [] s) (hsound : Sound s0.sb s0.disk)
    (hr : Room (bitmapCount s0.sb + 6) s0) {path : List UInt8} (hpath : ¬ NamesItself s0.sb s0.disk path) :
    Returns s0 (Fs.unlinkHelper p path) (fun ok s' => EndsInDots path → ok = false ∧ Visit p s0 [] [] s') s := by
  unfold Fs.unlinkHelper
  apply ensures_seq (h.dnamex hsound path true)
  intro r s1 hr1
  rcases r with _ | ⟨dp, name⟩
  · exact fun _ => ⟨rfl, hr1.2⟩
  obtain ⟨m, ht, h1⟩ := hr1
  have ht' : resolveParent s0.sb s0.disk ROOTINO (elements path) = some (m, name) := ht
  obtain ⟨hdir, hlast⟩ := resolveParent_type ht'
  apply ensures_seq (ensures_of_total (h1.ilock dp (by simp) not_mem_nil))
  intro _ s2 h2
  have htype := (h2.type_eq mem_cons_self mem_cons_self).trans hdir
  apply ensures_seq (ensures_and (h2.dirlookup hsound (by simp) mem_cons_self mem_cons_self htype name)
    (h2.toWalk.dirlookup hsound mem_cons_self mem_cons_self name))
  rintro r s3 ⟨hr3, hr3'⟩
  rcases r with _ | ⟨ip, off⟩
  · apply ensures_seq (ensures_of_total (hr3.2.iunlockput not_mem_nil fun j hj => absurd hj not_mem_nil))
    intro _ s4 h4 _
    exact ⟨rfl, h4⟩
  obtain ⟨n, hn, h3⟩ := hr3
  obtain ⟨_, _, k, j, hd, hj, rfl⟩ := hr3'
  have hne : n ≠ m := by
    rintro rfl
    exact hpath ⟨n, name, ht', hn⟩
  have hslot : ip ≠ dp := by
    rintro rfl
    exact hne ((h3.held _ mem_cons_self).1.symm.trans (h3.held (ip, m) (by simp)).1)
  apply ensures_seq (ensures_of_total (h3.ilock ip (by simp) (by simpa using hslot)))
  intro _ s4 h4
  by_cases hdots : nameEq name [DOT] = true ∨ nameEq name [DOT, DOT] = true
  · rw [if_pos hdots]
    exact ensures_mono (ensures_of_total (h4.unlinkBad hslot)) fun ok s' hok _ => hok
  · rw [if_neg hdots]
    have hno : ¬ EndsInDots path := fun hends => hdots (hends.name hlast)
    have hd4 : Dir dp k s4 := by
      have hdin : s4.din dp = s3.din dp := by
        rw [h4.din_eq (i := dp) (n := m) (by simp) (by simp), h3.din_eq (i := dp) (n := m) (by simp) (by simp)]
      obtain ⟨k', _, hd'⟩ := h4.dir hsound (i := dp) (n := m) (by simp) (by simp) (by rw [hdin, hd.type])
      have hk : k' = k := by
        have hsize := hd'.size
        rw [hdin, hd.size] at hsize
        lia
      exact hk ▸ hd'
    have hclear : Returns s0 (Fs.unlinkClear p ip dp (DESIZE * j))
        (fun ok s' => EndsInDots path → ok = false ∧ Visit p s0 [] [] s') s4 :=
      ensures_mono (ensures_of_total (h4.unlinkClear hsound hr hne hd4 hj)) fun _ _ _ hends => absurd hends hno
    show Returns s0 (if (s4.din ip).type = T_DIR then _ else _) _ s4
    by_cases hdir' : (s4.din ip).type = T_DIR
    · rw [if_pos hdir']
      apply ensures_seq (ensures_of_total (h4.isdirempty hsound mem_cons_self mem_cons_self hdir'))
      rintro empty s5 rfl
      cases empty with
      | true => exact hclear
      | false => exact ensures_mono (ensures_of_total (h4.unlinkBad hslot)) fun ok s' hok _ => hok
    · rw [if_neg hdir']
      exact hclear

/-- The directory is locked a second time. -/
theorem Visit.unlinkHelper_never (h : Visit p s0 [] [] s) (hsound : Sound s0.sb s0.disk) {path : List UInt8}
    (hpath : NamesItself s0.sb s0.disk path) : May (Fs.unlinkHelper p path) (fun _ _ => False) s := by
  obtain ⟨m, name, hparent, hself⟩ := hpath
  unfold Fs.unlinkHelper
  apply ensures_seq (h.dnamex hsound path true).may
  intro r s1 hr1
  rcases r with _ | ⟨dp, name'⟩
  · exact absurd (hr1.1.symm.trans hparent) (by simp)
  obtain ⟨m', ht, h1⟩ := hr1
  obtain ⟨rfl, rfl⟩ := Prod.mk.inj (Option.some.inj (ht.symm.trans hparent))
  apply ensures_seq (ensures_of_total (h1.ilock dp (by simp) not_mem_nil))
  intro _ s2 h2
  have htype := (h2.type_eq (i := dp) mem_cons_self mem_cons_self).trans (resolveParent_type hparent).1
  apply ensures_seq (h2.dirlookup hsound (by simp) mem_cons_self mem_cons_self htype _).may
  intro r s3 hr3
  rcases r with _ | ⟨ip, off⟩
  · exact absurd (hr3.1.symm.trans hself) (by simp)
  obtain ⟨n, hn, h3⟩ := hr3
  obtain rfl := Option.some.inj (hn.symm.trans hself)
  have hslot : ip = dp := h3.coherent.inj ip dp (h3.one_le_ref (by simp)) (h3.one_le_ref (by simp)) (by
    rw [(h3.held (ip, n) (by simp)).1, (h3.held (dp, n) (by simp)).1])
  have hlock : (s3.icache ip).lock = some p := by rw [h3.locks, hslot, if_pos mem_cons_self]
  refine ensures_seq (R := fun _ _ => False) ?_ fun _ _ hf => hf.elim
  unfold Fs.ilock
  refine ensures_check_bind.mpr ⟨fun _ => ?_, fun _ => trivial⟩
  exact ensures_seq (acquireInode_never hlock) fun _ _ hf => hf.elim

end Unlink

/-- `unlink_helper` returns, so that no lock it waits for is held. For a path that ends in `.` or `..` it returns `-1`,
with the file system and the references as before and without a lock. -/
def UnlinkReturns (p : Pid) (path : List UInt8) (s : State) : Prop :=
  ∃ ok s', (unlinkHelper p path).run s = .done ok s' ∧ (EndsInDots path → ok = false ∧ Untouched s s' ∧
    ∀ n, refcount s' n = refcount s n)

/-- Inside of an operation with room in the log, `unlink_helper` returns exactly when the last component does not name
the directory in which it is looked up. -/
theorem unlink_returns_iff {p : Pid} {path : List UInt8} {s : State} (h : Consistent s) (hfree : 2 ≤ freeEntries s)
    (hr : Room (bitmapCount s.sb + 6) s) : UnlinkReturns p path s ↔ ¬ NamesItself s.sb s.disk path := by
  constructor
  · rintro ⟨ok, s', hdone, _⟩ hself
    exact (of_run_eq_done ((h.visit p).unlinkHelper_never h.sound hself) hdone).elim
  · intro hself
    obtain ⟨ok, s', hdone, hok⟩ := ((h.visit p).unlinkHelper h.sound hr hself).run hfree
    refine ⟨ok, s', hdone, fun hends => ?_⟩
    obtain ⟨hfalse, hv⟩ := hok hends
    refine ⟨hfalse, hv.untouched, fun n => ?_⟩
    rw [hv.count, List.map_nil, List.count_nil, Nat.add_zero]

/-- A file system in use: the root directory has the entries `.`, `..` and `a`, which names an empty file. -/
def oneFile : State :=
  { fullDisk with
    disk := fun b =>
      if b = 1 then Dinode.write { type := T_FILE, nlink := 1 } ((dirInode 48 3).write Bytes.zero 1) 2
      else if b = 3 then Bytes.blit Bytes.zero 0 (dotEntries 1 1 ++ Dirent.encode ⟨2, padName [97]⟩)
      else fullDisk.disk b }

/-- The parts of the file system, and what the paths `/a`, `/.` and `/..` lead to. -/
theorem oneFile_parts :
    Plain oneFile.sb oneFile.disk ∧
    (resolveParent oneFile.sb oneFile.disk ROOTINO (elements [SLASH, 97]) = some (1, [97]) ∧
      descend oneFile.sb oneFile.disk 1 [97] = some 2) ∧
    ∀ path, path ∈ [[SLASH, DOT], [SLASH, DOT, DOT]] → (match (unlinkHelper 1 path).run oneFile with
      | .stuck s' => decide (s'.trace.waits 1 = some (.inode 0) ∧ (s'.icache 0).lock = some 1)
      | _ => false) = true := by decide +kernel

theorem consistent_oneFile : Consistent oneFile where
  sound := oneFile_parts.1.sound
  coherent := ⟨fun _ hi => absurd hi (Nat.not_succ_le_zero 0), fun _ hi => absurd hi (Nat.not_succ_le_zero 0),
    fun _ _ hi => absurd hi (Nat.not_succ_le_zero 0)⟩
  unlocked := fun _ => rfl

theorem room_oneFile : Room (bitmapCount oneFile.sb + 6) oneFile := ⟨by decide, by decide, by decide⟩

/-- The removal of a file, which is reclaimed. -/
theorem unlink_returns_file : UnlinkReturns 1 [SLASH, 97] oneFile := by
  refine (unlink_returns_iff consistent_oneFile (by decide) room_oneFile).mpr ?_
  rintro ⟨m, name, hparent, hself⟩
  obtain ⟨_, ⟨hp, hd⟩, _⟩ := oneFile_parts
  obtain ⟨rfl, rfl⟩ := Prod.mk.inj (Option.some.inj (hparent.symm.trans hp))
  exact absurd (hself.symm.trans hd) (by decide)

/-- `unlink` of `/.` and of `/..` sleeps for a lock of its own process. -/
theorem unlink_waits_for_itself : Consistent oneFile ∧ ∀ path, path = [SLASH, DOT] ∨ path = [SLASH, DOT, DOT] →
    ∃ s' ip, (unlinkHelper 1 path).run oneFile = .stuck s' ∧ s'.trace.waits 1 = some (.inode ip) ∧
      (s'.icache ip).lock = some 1 := by
  refine ⟨consistent_oneFile, fun path hpath => ?_⟩
  have hrun := oneFile_parts.2.2 path (by simpa using hpath)
  cases hr : (unlinkHelper 1 path).run oneFile with
  | done r s' =>
    rw [hr] at hrun
    cases hrun
  | panicked m s' =>
    rw [hr] at hrun
    cases hrun
  | stuck s' =>
    rw [hr] at hrun
    exact ⟨s', 0, rfl, of_decide_eq_true hrun⟩

end Xv6.Fs
