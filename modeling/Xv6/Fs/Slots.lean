import Xv6.Fs.Contents
import Xv6.Fs.Dir

/-!
# The slots of a directory

A directory is a file of sixteen byte entries. An entry lies within one block, so `readi` and
`writei` transfer it in one piece. `dirlookup` and `dirlink` search the entries from the first one
on. A write after the last one makes the directory longer, where a new block, and with it the
indirect block, may have to be allocated.
-/

namespace Xv6.Fs

open Data Coop Prog Storage Function

/-! ## Slots -/

abbrev EPB : Nat := BSIZE / DESIZE

/-- The `k`-th entry of the directory. -/
def slot (s : State) (dp : Fin NINODE) (k : Nat) : Dirent :=
  Dirent.decode ((s.disk (ptr s.disk (s.din dp) (ptrOf (k / EPB)))).slice (DESIZE * (k % EPB)) DESIZE)

/-- The inode in slot `dp` of the cache is a directory with `n` entries. -/
structure Dir (dp : Fin NINODE) (n : Nat) (s : State) : Prop where
  mapped : Mapped s.sb (s.icache dp).inum s.disk (s.din dp)
  ref : 1 ≤ (s.icache dp).ref
  type : (s.din dp).type = T_DIR
  size : (s.din dp).size.toNat = DESIZE * n
  le : DESIZE * n ≤ MAXFILE * BSIZE
  filled : ∀ bn, bn * BSIZE < DESIZE * n → ptr s.disk (s.din dp) (ptrOf bn) ≠ 0

def FreeSlot (s : State) : Prop := ∃ i, (s.icache i).ref = 0

/-- A directory entry for `name`. -/
def Matches (name : List UInt8) (e : Dirent) : Prop := e.inum ≠ 0 ∧ nameEq name e.name = true

variable {k : Nat} {s' : State}

section Reading

variable {p : Pid} {dp : Fin NINODE} {s : State} {n : Nat}

theorem toNat_off (h : DESIZE * k ≤ MAXFILE * BSIZE) : (UInt32.ofNat (DESIZE * k)).toNat = DESIZE * k := by
  rw [UInt32.toNat_ofNat']
  exact Nat.mod_eq_of_lt (by lia)

theorem toNat_end (h : DESIZE * k ≤ MAXFILE * BSIZE) :
    (UInt32.ofNat (DESIZE * k) + UInt32.ofNat DESIZE).toNat = DESIZE * k + DESIZE := by
  rw [UInt32.toNat_add, toNat_off h]
  exact Nat.mod_eq_of_lt (by
    show DESIZE * k + DESIZE < 2 ^ 32
    lia)

/-- The offset of a slot, or of the end, passes the checks of `readi` and `writei`. -/
theorem Dir.in_range (h : Dir dp n s) (hk : k ≤ n) :
    ¬ ((s.din dp).size < UInt32.ofNat (DESIZE * k) ∨
      UInt32.ofNat (DESIZE * k) + UInt32.ofNat DESIZE < UInt32.ofNat (DESIZE * k)) := by
  have hle : DESIZE * k ≤ MAXFILE * BSIZE := by have := h.le; lia
  rw [UInt32.lt_iff_toNat_lt, UInt32.lt_iff_toNat_lt, toNat_end hle, toNat_off hle, h.size]
  lia

theorem slot_block (k : Nat) : DESIZE * k / BSIZE = k / EPB := by lia

theorem slot_offset (k : Nat) : DESIZE * k % BSIZE = DESIZE * (k % EPB) := by lia

/-- An entry lies within one block. -/
theorem piece_slot (k : Nat) : piece (DESIZE * k) DESIZE = DESIZE := by
  unfold piece
  rw [slot_offset]
  lia

theorem readDirent_total (h : Dir dp n s) (hk : k < n) (msg : String) :
    Total (readDirent p dp (DESIZE * k) msg) (fun e s' => e = slot s dp k ∧ s' = s) s := by
  have hle : DESIZE * k ≤ MAXFILE * BSIZE := by have := h.le; lia
  have hoff := toNat_off hle
  have hend := toNat_end hle
  have hsize := h.size
  have hptr : ptr s.disk (s.din dp) (ptrOf (k / EPB)) ≠ 0 := h.filled _ (by lia)
  have hbn : k / EPB < MAXFILE := by have := h.le; lia
  have hall : ¬ (s.din dp).size < UInt32.ofNat (DESIZE * k) + UInt32.ofNat DESIZE := by
    rw [UInt32.lt_iff_toNat_lt, hend, hsize]
    lia
  have hread : Total (readi p dp (fun _ _ => true) (UInt32.ofNat (DESIZE * k)) (UInt32.ofNat DESIZE))
      (fun l s' => l = (s.disk (ptr s.disk (s.din dp) (ptrOf (k / EPB)))).slice
        (DESIZE * (k % EPB)) DESIZE ∧ s' = s) s := by
    unfold readi
    show Total (if _ then _ else _) _ s
    rw [if_neg (h.in_range (by omega)), if_neg hall, hoff]
    show Total (readLoop p dp _ (15 + 1) 0 (DESIZE * k) DESIZE) _ s
    unfold readLoop
    rw [if_pos (by lia), slot_block]
    apply ensures_seq (bmap_ends h.mapped hbn fun h0 => absurd h0 hptr)
    intro a s1 ha
    obtain ⟨ha, hs1⟩ := ha.2.1 hptr
    rw [ha, hs1, if_neg hptr]
    apply ensures_seq (bread_ends _)
    intro data s2 hdata
    rw [hdata.1, hdata.2, piece_slot, slot_offset, if_pos rfl]
    show Total (readLoop p dp _ (14 + 1) _ _ 0 >>= _) _ s
    unfold readLoop
    rw [if_neg (by omega)]
    exact ⟨List.append_nil _, rfl⟩
  unfold readDirent
  apply ensures_seq hread
  intro l s' hl
  rw [hl.1, hl.2, if_pos (Bytes.length_slice _ _ _)]
  exact ⟨rfl, rfl⟩

/-- The result of a search for `name` from slot `j` on: the first entry for it, whose inode is
taken from the cache. -/
def Found (dp : Fin NINODE) (n : Nat) (name : List UInt8) (s : State) (j : Nat) :
    Option (Fin NINODE × Nat) → State → Prop
  | none, s' => s' = s ∧ ∀ k, j ≤ k → k < n → ¬ Matches name (slot s dp k)
  | some (ip, off), s' => ∃ k, j ≤ k ∧ k < n ∧ off = DESIZE * k ∧ Matches name (slot s dp k) ∧
    igetStep (slot s dp k).inum.toNat s = .ok (ip, s')

/-- The entry that a search finds is the first one. -/
def FoundFirst (dp : Fin NINODE) (n : Nat) (name : List UInt8) (s : State) (j : Nat) :
    Option (Fin NINODE × Nat) → State → Prop
  | none, s' => Found dp n name s j none s'
  | some (ip, off), s' => ∃ k, j ≤ k ∧ k < n ∧ off = DESIZE * k ∧ Matches name (slot s dp k) ∧
    igetStep (slot s dp k).inum.toNat s = .ok (ip, s') ∧ ∀ l, j ≤ l → l < k → ¬ Matches name (slot s dp l)

theorem FoundFirst.found {name : List UInt8} {j : Nat} {r : Option (Fin NINODE × Nat)}
    (h : FoundFirst dp n name s j r s') : Found dp n name s j r s' := by
  rcases r with _ | ⟨ip, off⟩
  · exact h
  · obtain ⟨k, hk, hkn, hoff, hm, hget, _⟩ := h
    exact ⟨k, hk, hkn, hoff, hm, hget⟩

theorem FoundFirst.skip {name : List UInt8} {j : Nat} {r : Option (Fin NINODE × Nat)}
    (hj : ¬ Matches name (slot s dp j)) (h : FoundFirst dp n name s (j + 1) r s') :
    FoundFirst dp n name s j r s' := by
  rcases r with _ | ⟨ip, off⟩
  · refine ⟨h.1, fun k hk hkn => ?_⟩
    rcases Nat.eq_or_lt_of_le hk with rfl | hlt
    · exact hj
    · exact h.2 k hlt hkn
  · obtain ⟨k, hk, hkn, hoff, hm, hget, hfirst⟩ := h
    refine ⟨k, by omega, hkn, hoff, hm, hget, fun l hl hlk => ?_⟩
    rcases Nat.eq_or_lt_of_le hl with rfl | hlt
    · exact hj
    · exact hfirst l hlt hlk

theorem exists_igetStep (hfree : FreeSlot s) (inum : Nat) : ∃ ip s', igetStep inum s = .ok (ip, s') := by
  unfold igetStep
  split
  · exact ⟨_, _, rfl⟩
  · split
    · exact ⟨_, _, rfl⟩
    · rename_i hnone
      obtain ⟨i, hi⟩ := hfree
      have h := List.find?_eq_none.mp hnone i (List.mem_finRange i)
      simp [hi] at h

/-- Only `iget` may end the search abnormally. -/
theorem dirlookupFrom_ensures {E : Option String → State → Prop} (h : Dir dp n s)
    (hget : ∀ inum : Nat, (iget inum).ensures (fun _ => True) E
      (fun ip s' => igetStep inum s = .ok (ip, s')) s) (name : List UInt8) :
    ∀ {j : Nat}, j ≤ n → n < j + k →
      (dirlookupFrom p dp name k (DESIZE * j)).ensures (fun _ => True) E (FoundFirst dp n name s j) s := by
  induction k with
  | zero => intro j hj hk; omega
  | succ k ih =>
    intro j hj hk
    have hnext : DESIZE * j + DESIZE = DESIZE * (j + 1) := by lia
    unfold dirlookupFrom
    show Prog.ensures _ _ (if DESIZE * j < (s.din dp).size.toNat then _ else _) _ s
    rw [h.size]
    by_cases hjn : j < n
    · rw [if_pos (by lia)]
      apply ensures_seq (ensures_of_total (readDirent_total h hjn _))
      intro e s1 he
      rw [he.1, he.2, hnext]
      by_cases hinum : (slot s dp j).inum = 0
      · rw [if_pos hinum]
        exact ensures_mono (ih hjn (by omega)) fun r s' hr => hr.skip fun hm => hm.1 hinum
      · rw [if_neg hinum]
        by_cases hname : nameEq name (slot s dp j).name = true
        · rw [if_pos hname]
          apply ensures_seq (hget (slot s dp j).inum.toNat)
          intro ip s' hip
          exact ⟨j, Nat.le_refl j, hjn, rfl, ⟨hinum, hname⟩, hip, fun l hl hlj => by omega⟩
        · rw [if_neg hname]
          exact ensures_mono (ih hjn (by omega)) fun r s' hr => hr.skip fun hm => hname hm.2
    · rw [if_neg (by lia)]
      exact ⟨rfl, fun k hk hkn => by omega⟩

theorem dirlookup_first {E : Option String → State → Prop} (h : Dir dp n s)
    (hget : ∀ inum : Nat, (iget inum).ensures (fun _ => True) E
      (fun ip s' => igetStep inum s = .ok (ip, s')) s) (name : List UInt8) :
    (dirlookup p dp name).ensures (fun _ => True) E (FoundFirst dp n name s 0) s := by
  unfold dirlookup
  refine ensures_check_bind.mpr ⟨fun _ => ?_, fun hc => ?_⟩
  · show Prog.ensures _ _ (dirlookupFrom p dp name _ (DESIZE * 0)) _ _
    refine dirlookupFrom_ensures h hget name (Nat.zero_le n) ?_
    have := h.size
    lia
  · rw [h.type] at hc
    cases hc

theorem dirlookup_ensures {E : Option String → State → Prop} (h : Dir dp n s)
    (hget : ∀ inum : Nat, (iget inum).ensures (fun _ => True) E
      (fun ip s' => igetStep inum s = .ok (ip, s')) s) (name : List UInt8) :
    (dirlookup p dp name).ensures (fun _ => True) E (Found dp n name s 0) s :=
  ensures_mono (dirlookup_first h hget name) fun _ _ hr => hr.found

theorem dirlookup_total (h : Dir dp n s) (hfree : FreeSlot s) (name : List UInt8) :
    Total (dirlookup p dp name) (Found dp n name s 0) s := by
  refine dirlookup_ensures h (fun inum => ?_) name
  obtain ⟨ip, s', hget⟩ := exists_igetStep hfree inum
  rw [iget, ensures_step, hget]

/-- The slot that `dirlink` writes: the first free one, or the next after the last. -/
def Vacant (dp : Fin NINODE) (n : Nat) (s : State) (j k : Nat) : Prop :=
  j ≤ k ∧ (∀ l, j ≤ l → l < k → (slot s dp l).inum ≠ 0) ∧
    ((k < n ∧ (slot s dp k).inum = 0) ∨ k = n)

theorem dirlinkSlot_total (h : Dir dp n s) : ∀ {j : Nat}, j ≤ n → n < j + k → Total (dirlinkSlot p dp k (DESIZE * j))
      (fun off s' => s' = s ∧ ∃ l, off = DESIZE * l ∧ Vacant dp n s j l) s := by
  induction k with
  | zero => intro j hj hk; omega
  | succ k ih =>
    intro j hj hk
    have hnext : DESIZE * j + DESIZE = DESIZE * (j + 1) := by lia
    unfold dirlinkSlot
    show Total (if DESIZE * j < (s.din dp).size.toNat then _ else _) _ s
    rw [h.size]
    by_cases hjn : j < n
    · rw [if_pos (by lia)]
      apply ensures_seq (readDirent_total h hjn _)
      intro e s1 he
      rw [he.1, he.2, hnext]
      by_cases hinum : (slot s dp j).inum = 0
      · rw [if_pos hinum]
        exact ⟨rfl, j, rfl, Nat.le_refl j, fun l hl hlj => by omega, Or.inl ⟨hjn, hinum⟩⟩
      · rw [if_neg hinum]
        refine ensures_mono (ih hjn (by omega)) ?_
        rintro off s' ⟨hs', l, hoff, hl, hlive, hend⟩
        refine ⟨hs', l, hoff, by omega, fun l' hl' hlt => ?_, hend⟩
        rcases Nat.eq_or_lt_of_le hl' with rfl | hlt'
        · exact hinum
        · exact hlive l' hlt' hlt
    · rw [if_neg (by lia)]
      exact ⟨rfl, j, rfl, Nat.le_refl j, fun l hl hlj => by omega, Or.inr (by omega)⟩

end Reading

/-! ## Writing a slot -/

/-- There is a block for slot `k`, or one can be had. -/
def Fits (dp : Fin NINODE) (s : State) (k : Nat) : Prop :=
  DESIZE * (k + 1) ≤ MAXFILE * BSIZE ∧ (ptr s.disk (s.din dp) (ptrOf (k / EPB)) ≠ 0 ∨
    ¬ Exhausted s.sb s.disk (s.din dp) (k / EPB))

/-- The result of writing the entry `e` into slot `k` of a directory with `n` entries. When it is not
the whole entry, nothing has changed. -/
structure Written (dp : Fin NINODE) (n k : Nat) (e : Dirent) (s : State) (r : Option Nat) (s' : State) :
    Prop where
  framed : Framed dp 7 s s'
  iff : r = some DESIZE ↔ Fits dp s k
  grown : r = some DESIZE → Dir dp (max n (k + 1)) s' ∧
    ∀ j, j < max n (k + 1) → slot s' dp j = if j = k then e else slot s dp j
  same : r ≠ some DESIZE → Dir dp n s' ∧ ∀ j, j < n → slot s' dp j = slot s dp j
  spare : r ≠ some DESIZE → s' = s ∨ ∃ disk, Spare s.sb s.disk (s.din dp) disk (s'.din dp) ∧
    s'.disk = update disk (inodeBlock s.sb (s.icache dp).inum)
      ((s'.din dp).write (disk (inodeBlock s.sb (s.icache dp).inum)) ((s.icache dp).inum % IPB))

section Writing

variable {p : Pid} {dp : Fin NINODE} {s : State} {n : Nat} {l : List UInt8}

theorem bytes_ofList (hl : l.length = DESIZE) : (Source.ofList l).bytes 0 DESIZE = l := by
  refine List.ext_getElem (by simp [Source.bytes, hl]) ?_
  intro j h1 h2
  simp [Source.bytes, Source.ofList, h2]

/-- The loop of `writei` for one entry takes one round. -/
theorem writeLoop_total (h : Dir dp n s) (hr : Room 6 s) (hk : k / EPB < MAXFILE) (hl : l.length = DESIZE) :
    Total (writeLoop p dp (.ofList l) DESIZE 0 (DESIZE * k) DESIZE) (fun tot s' => ∃ a s1,
      Reached dp (s.icache dp).inum (k / EPB) s a s1 ∧
        ((a = 0 ∧ tot = 0 ∧ s' = s1) ∨
          (a ≠ 0 ∧ tot = DESIZE ∧ Framed dp 1 s1 s' ∧ s'.din dp = s1.din dp ∧
            s'.disk = update s1.disk a ((s1.disk a).blit (DESIZE * (k % EPB)) l)))) s := by
  show Total (writeLoop p dp _ (15 + 1) 0 (DESIZE * k) DESIZE) _ s
  unfold writeLoop
  rw [if_pos (by lia), slot_block]
  apply ensures_seq (bmap_reached_ends h.mapped hk (.inr (hr.mono (by omega))))
  intro a s1 hreached
  by_cases ha : a = 0
  · rw [if_pos ha]
    exact ⟨a, s1, hreached, Or.inl ⟨ha, rfl, rfl⟩⟩
  · rw [if_neg ha]
    apply ensures_seq (bread_ends _)
    intro data s2 hdata
    rw [hdata.1, hdata.2, piece_slot, slot_offset]
    have hbytes : (Source.ofList l).bytes 0 ((Source.ofList l).copied 0 DESIZE) = l := bytes_ofList hl
    have hcopied : (Source.ofList l).copied 0 DESIZE = DESIZE := rfl
    simp only [hbytes, if_pos hcopied]
    refine putBlock_logWrite_ends (i := dp) (.inr (hreached.framed.room hr)) fun s3 hframed hdin hdisk _ => ?_
    show Total (writeLoop p dp _ (14 + 1) _ _ 0) _ s3
    unfold writeLoop
    rw [if_neg (by omega)]
    exact ⟨a, s1, hreached, Or.inr ⟨ha, rfl, hframed, hdin, hdisk⟩⟩

/-- The slots after the block of slot `k` was written. -/
theorem slot_of_write {s1 s2 : State} {a : Nat} (h : Dir dp n s)
    (hreached : Reached dp (s.icache dp).inum (k / EPB) s a s1) (ha : a ≠ 0)
    (hl : l.length = DESIZE)
    (hdisk : s2.disk = update s1.disk a ((s1.disk a).blit (DESIZE * (k % EPB)) l))
    (hptr : ∀ m, ptr s'.disk (s'.din dp) m = ptr s1.disk (s1.din dp) m)
    (hblock : ∀ m, ptr s1.disk (s1.din dp) m ≠ 0 →
      s'.disk (ptr s1.disk (s1.din dp) m) = s2.disk (ptr s1.disk (s1.din dp) m))
    {j : Nat} (hj : j < max n (k + 1)) (hk : k ≤ n) :
    slot s' dp j = if j = k then Dirent.decode l else slot s dp j := by
  have ha' : ptr s1.disk (s1.din dp) (ptrOf (k / EPB)) ≠ 0 := by rwa [hreached.ptr_eq]
  have hnew : s'.disk a = (s1.disk a).blit (DESIZE * (k % EPB)) l := by
    have hb := hblock _ ha'
    rwa [hreached.ptr_eq, hdisk, update_self] at hb
  unfold slot
  rw [hptr]
  by_cases hjk : j = k
  · have hself := @Bytes.slice_blit_self _ (DESIZE * (k % EPB)) (s1.disk a) l (by lia)
    rw [hl] at hself
    rw [if_pos hjk, hjk, hreached.ptr_eq, hnew, hself]
  · rw [if_neg hjk]
    have hold : ptr s.disk (s.din dp) (ptrOf (j / EPB)) ≠ 0 := h.filled _ (by lia)
    obtain ⟨hptr1, hblock1⟩ := hreached.keep _ hold
    by_cases hsame : j / EPB = k / EPB
    · have hblk : s1.disk a = s.disk (ptr s.disk (s.din dp) (ptrOf (k / EPB))) := by
        rw [hsame] at hptr1 hblock1
        rw [← hreached.ptr_eq, hptr1, hblock1]
      rw [hsame, hreached.ptr_eq, hnew, Bytes.slice_blit_of_disjoint (by lia), hblk]
    · have hne : ptr s1.disk (s1.din dp) (ptrOf (j / EPB)) ≠ a := by
        intro he
        have hm := hreached.mapped.inj _ _ (by rwa [he]) (he.trans hreached.ptr_eq.symm)
        exact hsame (ptrOf_inj.mp hm)
      rw [hblock _ (by rwa [hptr1]), hdisk, update_of_ne hne, hptr1, hblock1]

/-- The inode is written back after a write that did not get a block. -/
theorem Reached.written_of_eq_zero {e : Dirent} {f : Dinode → Dinode} {s1 : State}
    {r : Option Nat} (h : Dir dp n s) (hreached : Reached dp (s.icache dp).inum (k / EPB) s 0 s1)
    (hsynced : Synced dp f s1 s') (hf : f (s1.din dp) = s1.din dp) (hr : r ≠ some DESIZE) :
    Written dp n k e s r s' where
  framed := (hreached.framed.trans hsynced.framed).mono (by omega)
  iff := by
    obtain ⟨h0, he⟩ := hreached.eq_zero_iff.mp rfl
    refine ⟨fun hd => absurd hd hr, fun hfits => ?_⟩
    rcases hfits.2 with hne | hne
    · exact absurd h0 hne
    · exact absurd he hne
  grown hd := absurd hd hr
  same _ := by
    refine ⟨⟨hsynced.mapped, ?_, ?_, ?_, h.le, fun bn hbn => ?_⟩, fun j hj => ?_⟩
    · rw [hsynced.framed.ref, hreached.framed.ref]
      exact h.ref
    · rw [hsynced.din, hf, hreached.type, h.type]
    · rw [hsynced.din, hf, hreached.size, h.size]
    · have hold := h.filled bn hbn
      rw [hsynced.ptr_eq, (hreached.keep bn hold).1]
      exact hold
    · have hold := h.filled (j / EPB) (by lia)
      obtain ⟨hptr1, hblock1⟩ := hreached.keep _ hold
      unfold slot
      rw [hsynced.ptr_eq, hsynced.block _ (by rwa [hptr1]), hptr1, hblock1]
  spare _ := by
    have hdisk := hsynced.disk
    rw [hreached.framed.sb, hreached.framed.inum, hf] at hdisk
    rw [hsynced.din, hf]
    exact Or.inr ⟨s1.disk, hreached.spare rfl, hdisk⟩

/-- The inode is written back after the entry was written into its block. -/
theorem Reached.written {a : Nat} {f : Dinode → Dinode} {s1 s2 : State}
    (h : Dir dp n s) (hk : k ≤ n) (hle : DESIZE * (k + 1) ≤ MAXFILE * BSIZE)
    (hreached : Reached dp (s.icache dp).inum (k / EPB) s a s1) (ha : a ≠ 0) (hl : l.length = DESIZE)
    (hframed : Framed dp 1 s1 s2) (hdin : s2.din dp = s1.din dp)
    (hdisk : s2.disk = update s1.disk a ((s1.disk a).blit (DESIZE * (k % EPB)) l))
    (hptr : ∀ m, ptr s2.disk (s2.din dp) m = ptr s1.disk (s1.din dp) m)
    (hsynced : Synced dp f s2 s') (hsize : (f (s1.din dp)).size.toNat = DESIZE * max n (k + 1))
    (htype : (f (s1.din dp)).type = (s1.din dp).type) :
    Written dp n k (Dirent.decode l) s (some DESIZE) s' where
  framed := ((hreached.framed.trans hframed).trans hsynced.framed).mono (by omega)
  iff := by
    refine ⟨fun _ => ⟨hle, ?_⟩, fun _ => rfl⟩
    by_contra hno
    rw [not_or, not_not, not_not] at hno
    exact ha (hreached.eq_zero_iff.mpr hno)
  grown _ := by
    have hptr' : ∀ m, ptr s'.disk (s'.din dp) m = ptr s1.disk (s1.din dp) m := fun m =>
      (hsynced.ptr_eq m).trans (hptr m)
    refine ⟨⟨hsynced.mapped, ?_, ?_, ?_, ?_, fun bn hbn => ?_⟩, fun j hj => ?_⟩
    · rw [hsynced.framed.ref, hframed.ref, hreached.framed.ref]
      exact h.ref
    · rw [hsynced.din, hdin, htype, hreached.type, h.type]
    · rw [hsynced.din, hdin, hsize]
    · have := h.le
      lia
    · rw [hptr']
      by_cases hb : bn = k / EPB
      · rwa [hb, hreached.ptr_eq]
      · have hold := h.filled bn (by lia)
        rw [(hreached.keep bn hold).1]
        exact hold
    · refine slot_of_write h hreached ha hl hdisk hptr' (fun m hm => ?_) hj hk
      rw [← hptr m] at hm ⊢
      exact hsynced.block m hm
  same hne := absurd rfl hne
  spare hne := absurd rfl hne

theorem writei_total (h : Dir dp n s) (hr : Room 7 s) (hk : k ≤ n) (hl : l.length = DESIZE) :
    Total (writei p dp (.ofList l) (UInt32.ofNat (DESIZE * k)) (UInt32.ofNat DESIZE))
      (Written dp n k (Dirent.decode l) s) s := by
  have hkle : DESIZE * k ≤ MAXFILE * BSIZE := by have := h.le; lia
  have hoff := toNat_off hkle
  have hend := toNat_end hkle
  have hsize := h.size
  unfold writei
  show Total (if _ then _ else _) _ s
  rw [if_neg (h.in_range hk), hend]
  by_cases hle : DESIZE * (k + 1) ≤ MAXFILE * BSIZE
  · rw [if_neg (by lia), hoff]
    apply ensures_seq (writeLoop_total h (hr.mono (by omega)) (by lia) hl)
    rintro tot s2 ⟨a, s1, hreached, hcases⟩
    have hinum : (s1.icache dp).inum = (s.icache dp).inum := hreached.framed.inum
    rcases hcases with ⟨rfl, rfl, rfl⟩ | ⟨ha, rfl, hframed, hdin, hdisk⟩
    · refine modDin_iupdate_ends (by rw [hinum]; exact hreached.mapped) (fun _ => rfl)
        (.inr ((Framed.room (k := 2) hreached.framed hr).mono (by omega))) fun s' hsynced => ?_
      have hkeep : ¬ (s2.din dp).size < UInt32.ofNat (DESIZE * k) + UInt32.ofNat 0 := by
        rw [hreached.size, UInt32.lt_iff_toNat_lt, hsize, UInt32.toNat_add, hoff]
        show ¬ DESIZE * n < (DESIZE * k + 0) % 2 ^ 32
        have := Nat.mod_le (DESIZE * k + 0) (2 ^ 32)
        lia
      refine hreached.written_of_eq_zero h hsynced ?_ (by decide)
      rw [if_neg hkeep]
    · have ha' : ptr s1.disk (s1.din dp) (ptrOf (k / EPB)) ≠ 0 := by rwa [hreached.ptr_eq]
      have hind := hreached.mapped.ptr_ne_indirect (ptrOf_ne_NDIRECT _) ha'
      have hmeta := hreached.mapped.apart _ ha'
      rw [hreached.ptr_eq] at hind hmeta
      have hptr : ∀ m, ptr s2.disk (s2.din dp) m = ptr s1.disk (s1.din dp) m := by
        rw [hdin, hdisk]
        exact Mapped.ptr_update (fun _ => rfl) hind _
      have hmapped : Mapped s2.sb (s2.icache dp).inum s2.disk (s2.din dp) := by
        rw [hframed.sb, hframed.inum, hinum, hdin, hdisk]
        exact hreached.mapped.put (fun _ => rfl) hind (fun b hb he => hmeta (Or.inr ⟨b, hb, he⟩)) _
      refine modDin_iupdate_ends hmapped (fun _ => rfl)
        (.inr ((hreached.framed.trans hframed).room hr)) fun s' hsynced => ?_
      refine hreached.written h hk hle ha hl hframed hdin hdisk hptr hsynced ?_ rfl
      show (if (s1.din dp).size < UInt32.ofNat (DESIZE * k) + UInt32.ofNat DESIZE then
        UInt32.ofNat (DESIZE * k) + UInt32.ofNat DESIZE else (s1.din dp).size).toNat = _
      rw [hreached.size]
      by_cases hgrow : (s.din dp).size < UInt32.ofNat (DESIZE * k) + UInt32.ofNat DESIZE
      · rw [if_pos hgrow, hend]
        rw [UInt32.lt_iff_toNat_lt, hend, hsize] at hgrow
        lia
      · rw [if_neg hgrow, hsize]
        rw [UInt32.lt_iff_toNat_lt, hend, hsize] at hgrow
        lia
  · rw [if_pos (by lia)]
    exact ⟨(Framed.refl dp s).mono (by omega), ⟨nofun, fun hfits => absurd hfits.1 hle⟩,
      nofun, fun _ => ⟨h, fun _ _ => rfl⟩, fun _ => Or.inl rfl⟩

end Writing

end Xv6.Fs
