import Xv6.Fs.Paths
import Mathlib.Algebra.BigOperators.Group.Finset.Basic
import Mathlib.Algebra.Order.BigOperators.Group.Finset
import Mathlib.Data.Fintype.Card

/-!
# Traversals

A traversal of a path takes and drops references and locks, hand over hand. `Visit` counts them. With two free
entries in the inode cache a traversal returns; otherwise `iget` may panic, and that is the only way in which
it can end abnormally when nobody else holds a lock.
-/

namespace Xv6.Fs

open Data Coop Prog Storage

/-! ## References -/

/-- What an entry of the cache adds to the references to inode `n`. -/
def Inode.refsTo (e : Inode) (n : Nat) : Nat := if e.inum = n then e.ref else 0

/-- The number of references to inode `n`. -/
def refcount (s : State) (n : Nat) : Nat := ∑ i, (s.icache i).refsTo n

/-- The number of entries of the cache without references. -/
def freeEntries (s : State) : Nat := (Finset.univ.filter fun i => (s.icache i).ref = 0).card

theorem State.modInode_self (s : State) (i : Fin NINODE) (f : Inode → Inode) :
    (s.modInode i f).icache i = f (s.icache i) := Function.update_self _ _ _

theorem State.modInode_of_ne (s : State) {i j : Fin NINODE} (f : Inode → Inode) (h : j ≠ i) :
    (s.modInode i f).icache j = s.icache j := Function.update_of_ne h _ _

section References

variable {s s' : State} {i ip : Fin NINODE} {n : Nat}

theorem refcount_congr (h : ∀ i, (s'.icache i).inum = (s.icache i).inum ∧ (s'.icache i).ref = (s.icache i).ref) (n : Nat) :
    refcount s' n = refcount s n := by
  refine Finset.sum_congr rfl fun i _ => ?_
  unfold Inode.refsTo
  rw [(h i).1, (h i).2]

theorem refcount_of_other (h : ∀ j, j ≠ ip → s'.icache j = s.icache j) (n : Nat) :
    refcount s' n + (s.icache ip).refsTo n = refcount s n + (s'.icache ip).refsTo n := by
  have hrest : ∑ j ∈ Finset.univ.erase ip, (s'.icache j).refsTo n = ∑ j ∈ Finset.univ.erase ip, (s.icache j).refsTo n :=
    Finset.sum_congr rfl fun j hj => by rw [h j (Finset.ne_of_mem_erase hj)]
  unfold refcount
  rw [← Finset.sum_erase_add _ _ (Finset.mem_univ ip), ← Finset.sum_erase_add Finset.univ _ (Finset.mem_univ ip),
    hrest]
  omega

theorem one_le_refcount (href : 1 ≤ (s.icache i).ref) : 1 ≤ refcount s (s.icache i).inum := by
  have hle : (s.icache i).refsTo (s.icache i).inum ≤ refcount s (s.icache i).inum :=
    Finset.single_le_sum (f := fun j => (s.icache j).refsTo (s.icache i).inum) (fun _ _ => Nat.zero_le _)
      (Finset.mem_univ i)
  unfold Inode.refsTo at hle
  rw [if_pos rfl] at hle
  omega

theorem exists_of_one_le_refcount (h : 1 ≤ refcount s n) : ∃ i, 1 ≤ (s.icache i).ref ∧ (s.icache i).inum = n := by
  by_contra hno
  have hzero : refcount s n = 0 := by
    refine Finset.sum_eq_zero fun i _ => ?_
    unfold Inode.refsTo
    split
    · rename_i hinum
      by_contra hne
      exact hno ⟨i, by omega, hinum⟩
    · rfl
  omega

/-- An inode has at most one entry, so its references are those of the entry. -/
theorem Coherent.refcount_eq (h : Coherent s) (href : 1 ≤ (s.icache i).ref) :
    refcount s (s.icache i).inum = (s.icache i).ref := by
  unfold refcount
  rw [Finset.sum_eq_single i]
  · exact if_pos rfl
  · intro j _ hj
    unfold Inode.refsTo
    split
    · rename_i hinum
      by_contra hne
      exact hj (h.inj j i (by omega) href hinum)
    · rfl
  · exact fun hno => absurd (Finset.mem_univ i) hno

def usedEntries (s : State) : Finset (Fin NINODE) := Finset.univ.filter fun i => 1 ≤ (s.icache i).ref

theorem mem_usedEntries : i ∈ usedEntries s ↔ 1 ≤ (s.icache i).ref := by
  unfold usedEntries
  rw [Finset.mem_filter]
  exact ⟨fun h => h.2, fun h => ⟨Finset.mem_univ i, h⟩⟩

theorem card_usedEntries (s : State) : (usedEntries s).card + freeEntries s = NINODE := by
  have h := Finset.card_filter_add_card_filter_not (s := (Finset.univ : Finset (Fin NINODE)))
    (fun i => 1 ≤ (s.icache i).ref)
  rw [Finset.card_univ, Fintype.card_fin] at h
  have hfree : (Finset.univ.filter fun i => ¬ 1 ≤ (s.icache i).ref) = Finset.univ.filter fun i => (s.icache i).ref = 0 := by
    ext i
    simp only [Finset.mem_filter, Finset.mem_univ, true_and]
    omega
  rw [hfree] at h
  exact h

/-- More references to the inodes of a list use up at most as many entries. -/
theorem Coherent.freeEntries_le {l : List Nat} (h : Coherent s') (hrefs : ∀ n, refcount s' n = refcount s n + l.count n) :
    freeEntries s ≤ freeEntries s' + l.length := by
  have hinj : ((usedEntries s').image fun i => (s'.icache i).inum).card = (usedEntries s').card := by
    refine Finset.card_image_of_injOn fun i hi j hj he => ?_
    exact h.inj i j (mem_usedEntries.mp hi) (mem_usedEntries.mp hj) he
  have hsub : (usedEntries s').image (fun i => (s'.icache i).inum) ⊆
      (usedEntries s).image (fun i => (s.icache i).inum) ∪ l.toFinset := by
    intro n hn
    obtain ⟨i, hi, rfl⟩ := Finset.mem_image.mp hn
    have hone := one_le_refcount (mem_usedEntries.mp hi)
    rw [hrefs] at hone
    rw [Finset.mem_union, List.mem_toFinset]
    by_cases hl : (s'.icache i).inum ∈ l
    · exact Or.inr hl
    · have hcount : l.count (s'.icache i).inum = 0 := List.count_eq_zero.mpr hl
      obtain ⟨j, hj, hinum⟩ := exists_of_one_le_refcount (n := (s'.icache i).inum) (s := s) (by omega)
      exact Or.inl (Finset.mem_image.mpr ⟨j, mem_usedEntries.mpr hj, hinum⟩)
  have hcard := (Finset.card_le_card hsub).trans (Finset.card_union_le _ _)
  have himage : ((usedEntries s).image fun i => (s.icache i).inum).card ≤ (usedEntries s).card :=
    Finset.card_image_le
  have hlist : l.toFinset.card ≤ l.length := List.toFinset_card_le l
  have h1 := card_usedEntries s
  have h2 := card_usedEntries s'
  omega

theorem igetStep_error {m : String} (h : igetStep n s = .error m) : m = "iget: no inodes" ∧ freeEntries s = 0 := by
  unfold igetStep at h
  split at h
  · cases h
  · split at h
    · cases h
    · rename_i hnone
      cases h
      refine ⟨rfl, Finset.card_eq_zero.mpr (Finset.filter_eq_empty_iff.mpr fun i _ hi => ?_)⟩
      exact List.find?_eq_none.mp hnone i (List.mem_finRange i) (decide_eq_true hi)

theorem igetStep_lock (h : igetStep n s = .ok (ip, s')) (j : Fin NINODE) :
    (s'.icache j).lock = (s.icache j).lock ∧ s'.cwd = s.cwd := by
  unfold igetStep at h
  have hmod : ∀ (f : Inode → Inode), (∀ e, (f e).lock = e.lock) →
      ((s.modInode ip f).icache j).lock = (s.icache j).lock := by
    intro f hf
    by_cases he : j = ip
    · subst he
      rw [State.modInode_self, hf]
    · rw [State.modInode_of_ne _ _ he]
  split at h
  · cases h
    exact ⟨hmod _ fun _ => rfl, rfl⟩
  · split at h
    · cases h
      exact ⟨hmod _ fun _ => rfl, rfl⟩
    · cases h

/-- `iget` adds one reference. -/
theorem Got.refcount_eq (h : Got n ip s s') (m : Nat) : refcount s' m = refcount s m + if m = n then 1 else 0 := by
  have hsum := refcount_of_other h.other m
  unfold Inode.refsTo at hsum
  rw [h.inum_eq] at hsum
  rcases h.cases with ⟨hone, hself⟩ | ⟨hzero, hone, _⟩
  · have hinum : (s.icache ip).inum = n := by
      have := h.inum_eq
      rw [hself] at this
      exact this
    have href : (s'.icache ip).ref = (s.icache ip).ref + 1 := by rw [hself]
    rw [hinum, href] at hsum
    by_cases hm : m = n
    · rw [if_pos hm.symm, if_pos hm.symm] at hsum
      rw [if_pos hm]
      omega
    · rw [if_neg (Ne.symm hm), if_neg (Ne.symm hm)] at hsum
      rw [if_neg hm]
      omega
  · rw [hzero, hone, ite_self] at hsum
    by_cases hm : m = n
    · rw [if_pos hm.symm] at hsum
      rw [if_pos hm]
      omega
    · rw [if_neg (Ne.symm hm)] at hsum
      rw [if_neg hm]
      omega

end References

/-! ## Traversals -/

/-- The inode cache has less than two free entries, and `iget` has found none. -/
def CacheFull (s₀ : State) (m : Option String) (_ : State) : Prop :=
  m = some "iget: no inodes" ∧ freeEntries s₀ < 2

/-- The program returns with `Q`, or there was no entry in the inode cache for it. -/
abbrev Returns (s₀ : State) {α : Type} (x : Prog State α) (Q : α → State → Prop) (s : State) : Prop :=
  x.ensures (fun _ => True) (CacheFull s₀) Q s

/-- What `ilock` changes in the inode cache. -/
structure Locked (p : Pid) (ip : Fin NINODE) (s s' : State) : Prop where
  cwd : s'.cwd = s.cwd
  other : ∀ j, j ≠ ip → s'.icache j = s.icache j
  inum : (s'.icache ip).inum = (s.icache ip).inum
  ref : (s'.icache ip).ref = (s.icache ip).ref
  lock : (s'.icache ip).lock = some p

theorem locked_modInode (p : Pid) (ip : Fin NINODE) (s : State) {f : Inode → Inode} (hinum : ∀ e, (f e).inum = e.inum)
    (href : ∀ e, (f e).ref = e.ref) (hlock : ∀ e, (f e).lock = some p) :
    Locked p ip s ((s.noteWake p).modInode ip f) where
  cwd := rfl
  other _ hj := State.modInode_of_ne _ _ hj
  inum := by rw [State.modInode_self, hinum]; rfl
  ref := by rw [State.modInode_self, href]; rfl
  lock := by rw [State.modInode_self, hlock]

theorem acquireInode_total {p : Pid} {ip : Fin NINODE} {s : State} (hlock : (s.icache ip).lock = none) :
    Total (acquireInode p ip)
      (fun _ s' => s' = (s.noteWake p).modInode ip fun e => { e with lock := some p }) s := by
  have hfree : s.free (.inode ip) = true := by
    show ((s.icache ip).lock == none) = true
    rw [hlock]
    rfl
  have hnote : s.noteWait p (.inode ip) = s := by
    unfold State.noteWait
    rw [if_pos hfree]
  unfold acquireInode Fs.waitFor
  refine ensures_seq (R := fun _ s1 => s1 = s) ?_ ?_
  · refine ensures_seq (R := fun _ s1 => s1 = s) hnote ?_
    rintro _ s1 rfl
    refine ensures_await.mpr ⟨fun _ => rfl, fun hc => ?_⟩
    cases hfree.symm.trans hc
  · rintro _ s1 rfl
    rfl

/-- An inode that is not locked and, if it is read from the disk, is allocated there. -/
theorem ilock_total {p : Pid} {ip : Fin NINODE} {s : State} (hone : 1 ≤ (s.icache ip).ref)
    (hlock : (s.icache ip).lock = none) (htype : (dinodeAt s.sb s.disk (s.icache ip).inum).type ≠ 0) :
    Total (ilock p ip) (fun _ s' => Locked p ip s s') s := by
  unfold ilock
  refine ensures_check_bind.mpr ⟨fun _ => ?_, fun hc => absurd hone (of_decide_eq_false hc)⟩
  apply ensures_seq (acquireInode_total hlock)
  rintro _ s1 rfl
  show Total (if (_ : Inode).valid = true then _ else _) _ _
  split
  · exact locked_modInode p ip s (fun _ => rfl) (fun _ => rfl) fun _ => rfl
  · show Total (bread _ >>= _) _ _
    apply ensures_seq (bread_ends _)
    rintro data s2 ⟨hdata, rfl⟩
    simp only [State.modInode_self] at hdata
    refine ensures_seq (R := fun _ s3 => Locked p ip s s3 ∧ (s3.din ip).type ≠ 0) ?_ ?_
    · refine ⟨⟨rfl, fun j hj => ?_, ?_, ?_, ?_⟩, ?_⟩
      · rw [State.modInode_of_ne _ _ hj, State.modInode_of_ne _ _ hj]
        rfl
      · rw [State.modInode_self, State.modInode_self]
        rfl
      · rw [State.modInode_self, State.modInode_self]
        rfl
      · rw [State.modInode_self, State.modInode_self]
      · rw [State.din, State.modInode_self, State.modInode_self, hdata]
        exact htype
    · intro _ s3 h3
      refine ensures_check.mpr ⟨fun _ => h3.1, fun hc => ?_⟩
      have hne : ((s3.din ip).type != 0) = true := bne_iff_ne.mpr h3.2
      cases hc.symm.trans hne

/-- An inode with a link is not reclaimed. -/
theorem iput_total {p : Pid} {ip : Fin NINODE} {s : State} (hone : 1 ≤ (s.icache ip).ref)
    (hlink : (s.icache ip).valid → (s.din ip).nlink ≠ 0) :
    Total (iput p ip) (fun _ s' => s' = s.modInode ip fun e => { e with ref := e.ref - 1 }) s := by
  have hkeep : (s.icache ip).ref ≠ 1 ∨ (s.icache ip).valid = false ∨ (s.icache ip).din.nlink ≠ 0 := by
    by_cases hval : (s.icache ip).valid = true
    · exact Or.inr (Or.inr (hlink hval))
    · exact Or.inr (Or.inl (by simpa using hval))
  unfold iput
  show Total (if _ then _ else _) _ s
  rw [if_pos hkeep]
  exact ensures_check_bind.mpr ⟨fun _ => rfl, fun hc => absurd hone (of_decide_eq_false hc)⟩

/-- Process `p` has come from `s₀` to `s` without changing a file. It has exactly the references of the list
and holds exactly the given locks; nobody else holds a lock. -/
structure Visit (p : Pid) (s₀ : State) (l : List (Fin NINODE × Nat)) (L : List (Fin NINODE)) (s : State) : Prop
    extends Walk s₀ l L s where
  cwd : s.cwd = s₀.cwd
  locks : ∀ i, (s.icache i).lock = if i ∈ L then some p else none
  count : ∀ n, refcount s n = refcount s₀ n + (l.map Prod.snd).count n
  stays : ∀ i, 1 ≤ (s₀.icache i).ref → 1 ≤ (s.icache i).ref ∧ (s.icache i).inum = (s₀.icache i).inum

namespace Visit

variable {p : Pid} {s₀ s s' : State} {l : List (Fin NINODE × Nat)} {L : List (Fin NINODE)} {i ip : Fin NINODE}
  {n : Nat} {sb : Superblock} {disk : Nat → Block} {parent : Bool}

section

variable (h : Visit p s₀ l L s)
include h

theorem cacheFull (hl : l.length ≤ 1) {m : String} (hget : igetStep n s = .error m) : CacheFull s₀ (some m) s := by
  obtain ⟨rfl, hzero⟩ := igetStep_error hget
  have hle := h.coherent.freeEntries_le h.count
  rw [List.length_map] at hle
  exact ⟨rfl, by omega⟩

theorem got (hget : igetStep n s = .ok (ip, s')) (hn : Linked s₀.sb s₀.disk n) :
    Visit p s₀ ((ip, n) :: l) L s' where
  toWalk := h.toWalk.got (got_of_igetStep hget) hn
  cwd := (igetStep_lock hget ip).2.trans h.cwd
  locks i := by rw [(igetStep_lock hget i).1, h.locks]
  count m := by
    rw [(got_of_igetStep hget).refcount_eq, h.count, List.map_cons, List.count_cons, Nat.add_assoc]
    congr 2
    by_cases hm : m = n
    · rw [if_pos hm, if_pos (by simpa using hm.symm)]
    · rw [if_neg hm, if_neg (by simpa using Ne.symm hm)]
  stays i hi := by
    obtain ⟨hone, hinum⟩ := h.stays i hi
    obtain ⟨hinum', _, hone'⟩ := (got_of_igetStep hget).entry hone
    exact ⟨hone', hinum'.trans hinum⟩

theorem iget (hl : l.length ≤ 1) (hn : Linked s₀.sb s₀.disk n) :
    Returns s₀ (Fs.iget n) (fun ip => Visit p s₀ ((ip, n) :: l) L) s := by
  rw [Fs.iget, Returns, ensures_step]
  cases hget : igetStep n s with
  | ok r => exact h.got hget hn
  | error m => exact h.cacheFull hl hget

/-- The lock of an entry with a reference is free and can be had. -/
theorem ilock (ip : Fin NINODE) (hip : ip ∈ l.map Prod.fst) (hL : ip ∉ L) :
    Total (Fs.ilock p ip) (fun _ => Visit p s₀ l (ip :: L)) s := by
  have hone := h.one_le_ref hip
  have hlock : (s.icache ip).lock = none := by rw [h.locks, if_neg hL]
  refine ensures_mono (ensures_and (ilock_total hone hlock (h.coherent.live ip hone).2) (h.toWalk.ilock ip hip)) ?_
  rintro _ s' ⟨hlocked, hwalk⟩
  have hsame : ∀ j, (s'.icache j).inum = (s.icache j).inum ∧ (s'.icache j).ref = (s.icache j).ref := by
    intro j
    by_cases hj : j = ip
    · rw [hj]
      exact ⟨hlocked.inum, hlocked.ref⟩
    · rw [hlocked.other j hj]
      exact ⟨rfl, rfl⟩
  refine ⟨hwalk, hlocked.cwd.trans h.cwd, fun j => ?_, fun m => ?_, fun j hj => ?_⟩
  · by_cases hj : j = ip
    · rw [hj, hlocked.lock, if_pos List.mem_cons_self]
    · rw [hlocked.other j hj, h.locks]
      refine if_congr ?_ rfl rfl
      rw [List.mem_cons]
      exact ⟨Or.inr, fun hor => hor.resolve_left hj⟩
  · rw [← h.count]
    exact refcount_congr hsame m
  · rw [(hsame j).1, (hsame j).2]
    exact h.stays j hj

end

theorem modLock_same (s : State) (i : Fin NINODE) (q : Option Pid) (j : Fin NINODE) :
    ((s.modInode i fun e => { e with lock := q }).icache j).inum = (s.icache j).inum ∧
      ((s.modInode i fun e => { e with lock := q }).icache j).ref = (s.icache j).ref := by
  by_cases hj : j = i
  · rw [hj, State.modInode_self]
    exact ⟨rfl, rfl⟩
  · rw [State.modInode_of_ne _ _ hj]
    exact ⟨rfl, rfl⟩

theorem iunlock (h : Visit p s₀ l (ip :: L) s) (hL : ip ∉ L) : Total (Fs.iunlock p ip) (fun _ => Visit p s₀ l L) s := by
  have hone := h.one_le_ref (h.valid ip List.mem_cons_self).1
  have hlock : (s.icache ip).lock = some p := by rw [h.locks, if_pos List.mem_cons_self]
  unfold Fs.iunlock
  refine ensures_check_bind.mpr ⟨fun _ => ?_, fun hc => absurd ⟨hlock, hone⟩ (of_decide_eq_false hc)⟩
  refine ⟨(h.toWalk.setLock ip none).forget fun j => List.mem_cons_of_mem ip, h.cwd, fun j => ?_, fun m => ?_,
    fun j hj => ?_⟩
  · by_cases hj : j = ip
    · rw [hj, State.modInode_self, if_neg hL]
    · rw [State.modInode_of_ne _ _ hj, h.locks]
      refine if_congr ?_ rfl rfl
      rw [List.mem_cons]
      exact ⟨fun hor => hor.resolve_left hj, Or.inr⟩
  · rw [← h.count]
    exact refcount_congr (modLock_same s ip none) m
  · rw [(modLock_same s ip none j).1, (modLock_same s ip none j).2]
    exact h.stays j hj

theorem iput (h : Visit p s₀ ((ip, n) :: l) L s) (hL : ∀ j, j ∈ L → j ∈ l.map Prod.fst) :
    Total (Fs.iput p ip) (fun _ => Visit p s₀ l L) s := by
  obtain ⟨hinum, hlinked⟩ := h.held (ip, n) List.mem_cons_self
  have hone := h.one_le_ref (j := ip) (by simp)
  have hexact : Total (Fs.iput p ip) (fun _ s' => s' = s.modInode ip fun e => { e with ref := e.ref - 1 }) s := by
    refine iput_total hone fun hval => ?_
    rw [h.coherent.din ip hone hval, hinum, h.sb, h.disk]
    exact hlinked.2
  refine ensures_mono (ensures_and hexact (h.toWalk.iput hL)) ?_
  rintro _ s' ⟨rfl, hwalk⟩
  refine ⟨hwalk, h.cwd, fun j => ?_, fun m => ?_, fun j hj => ?_⟩
  · rw [← h.locks]
    by_cases hj : j = ip
    · rw [hj, State.modInode_self]
    · rw [State.modInode_of_ne _ _ hj]
  · have hcount := h.count m
    rw [List.map_cons, List.count_cons] at hcount
    have hother : ∀ j, j ≠ ip → (s.modInode ip fun e => { e with ref := e.ref - 1 }).icache j = s.icache j :=
      fun _ hj => State.modInode_of_ne _ _ hj
    have hsum := refcount_of_other hother m
    rw [State.modInode_self] at hsum
    unfold Inode.refsTo at hsum
    simp only [hinum] at hsum
    by_cases hm : n = m
    · rw [if_pos hm, if_pos hm] at hsum
      rw [if_pos (by simpa using hm)] at hcount
      omega
    · rw [if_neg hm, if_neg hm] at hsum
      rw [if_neg (by simpa using hm)] at hcount
      omega
  · obtain ⟨hone', hinum'⟩ := h.stays j hj
    by_cases he : j = ip
    · -- an entry that was in use before has another reference
      subst he
      have hrefs := h.coherent.refcount_eq hone
      have hbefore := one_le_refcount hj
      rw [h.count, hinum, List.map_cons, List.count_cons_self] at hrefs
      rw [← hinum', hinum] at hbefore
      rw [State.modInode_self]
      refine ⟨?_, hinum'⟩
      show 1 ≤ (s.icache j).ref - 1
      omega
    · rw [State.modInode_of_ne _ _ he]
      exact ⟨hone', hinum'⟩

theorem iunlockput (h : Visit p s₀ ((ip, n) :: l) (ip :: L) s) (hip : ip ∉ L) (hL : ∀ j, j ∈ L → j ∈ l.map Prod.fst) :
    Total (Fs.iunlockput p ip) (fun _ => Visit p s₀ l L) s := by
  unfold Fs.iunlockput
  apply ensures_seq (h.iunlock hip)
  intro _ s1 h1
  exact h1.iput hL

theorem perm {l' : List (Fin NINODE × Nat)} (h : Visit p s₀ l L s) (hl : l'.Perm l) : Visit p s₀ l' L s where
  toWalk := h.toWalk.perm hl
  cwd := h.cwd
  locks := h.locks
  count n := by rw [(hl.map Prod.snd).count_eq, h.count]
  stays := h.stays

theorem dirlookup (h : Visit p s₀ l L s) (hsound : Sound s₀.sb s₀.disk) (hl : l.length ≤ 1) (hi : i ∈ L)
    (hin : (i, n) ∈ l) (htype : (s.din i).type = T_DIR) (name : List UInt8) :
    Returns s₀ (Fs.dirlookup p i name) (fun r s' => match r with
      | none => descend s₀.sb s₀.disk n name = none ∧ Visit p s₀ l L s'
      | some (ip, _) => ∃ m, descend s₀.sb s₀.disk n name = some m ∧ Visit p s₀ ((ip, m) :: l) L s') s := by
  obtain ⟨k, hok, hd⟩ := h.dir hsound hi hin htype
  have hdin := h.din_eq hi hin
  have hdir : descend s₀.sb s₀.disk n name = lookupName s₀.sb s₀.disk n name := by
    rw [hdin] at htype
    exact if_pos htype
  have hslot : ∀ j, slot s i j = entryAt s₀.disk (dinodeAt s₀.sb s₀.disk n) j := by
    intro j
    rw [slot_eq_entryAt, h.disk, hdin]
  refine ensures_mono (dirlookup_first hd (fun inum => ?_) name) ?_
  · rw [Fs.iget, ensures_step]
    cases hget : igetStep inum s with
    | ok r => rfl
    | error m => exact h.cacheFull hl hget
  · intro r s' hf
    rw [hdir]
    rcases r with _ | ⟨ip, off⟩
    · obtain ⟨rfl, hnone⟩ := hf
      refine ⟨lookupName_eq_none hok.size fun j hj => ?_, h⟩
      rw [← hslot]
      exact hnone j (Nat.zero_le j) hj
    · obtain ⟨j, _, hj, rfl, hm, hget, hfirst⟩ := hf
      rw [hslot] at hm hget
      refine ⟨_, lookupName_eq_some hok.size hj hm fun j' hj' => ?_, h.got hget (hok.linked j hj hm.1)⟩
      rw [← hslot]
      exact hfirst j' (Nat.zero_le j') hj'

/-- The loaded fields of a locked inode tell whether it is a directory. -/
theorem type_eq (h : Visit p s₀ l L s) (hi : i ∈ L) (hin : (i, n) ∈ l) :
    (s.din i).type = (dinodeAt s₀.sb s₀.disk n).type := by rw [h.din_eq hi hin]

/-- The inode and the name that the traversal is to end with. -/
def target (sb : Superblock) (disk : Nat → Block) (parent : Bool) (n : Nat) (cs : List (List UInt8)) :
    Option (Nat × List UInt8) :=
  if parent then resolveParent sb disk n cs else (resolve sb disk n cs).map (·, [])

/-- The traversal has ended at its target, with one reference, or without a reference when there is none. -/
def Arrived (p : Pid) (s₀ : State) (t : Option (Nat × List UInt8)) (r : Option (Fin NINODE × List UInt8)) (s' : State) :
    Prop :=
  match r with
  | none => t = none ∧ Visit p s₀ [] [] s'
  | some (ip, name) => ∃ m, t = some (m, name) ∧ Visit p s₀ [(ip, m)] [] s'

theorem target_cons {c : List UInt8} {cs : List (List UInt8)} (h : ¬ (parent ∧ cs = [])) :
    target sb disk parent n (c :: cs) = (descend sb disk n c).bind fun m => target sb disk parent m cs := by
  unfold target
  cases parent with
  | true => exact resolveParent_cons fun hcs => h ⟨rfl, hcs⟩
  | false =>
    show (resolve sb disk n (c :: cs)).map _ = _
    rw [resolve_cons]
    cases descend sb disk n c with
    | none => rfl
    | some m => rfl

theorem target_nil : target sb disk parent n [] = if parent then none else some (n, []) := by
  cases parent with
  | true => rfl
  | false => rfl

/-- From an inode that is not a directory no component can be looked up. -/
theorem target_of_not_dir {c : List UInt8}
    {cs : List (List UInt8)} (h : (dinodeAt sb disk n).type ≠ T_DIR) : target sb disk parent n (c :: cs) = none := by
  by_cases hlast : parent = true ∧ cs = []
  · obtain ⟨rfl, rfl⟩ := hlast
    show (if _ then _ else none : Option _) = none
    exact if_neg h
  · rw [target_cons hlast, descend, if_neg h]
    rfl

theorem target_last {c : List UInt8} (h : (dinodeAt sb disk n).type = T_DIR) :
    target sb disk true n [c] = some (n, c) := by
  show (if _ then _ else none : Option _) = _
  exact if_pos h

theorem dnamexFrom (hsound : Sound s₀.sb s₀.disk) {k : Nat} :
    ∀ {ip : Fin NINODE} {n : Nat} {path : List UInt8} {s : State}, path.length < k → Visit p s₀ [(ip, n)] [] s →
      Returns s₀ (Fs.dnamexFrom p parent k ip path)
        (Arrived p s₀ (target s₀.sb s₀.disk parent n (elements path))) s := by
  induction k with
  | zero =>
    intro ip n path s hlt
    omega
  | succ k ih =>
    intro ip n path s hlt h
    unfold Fs.dnamexFrom
    cases hskip : skipelem path with
    | none =>
      have hnil : elements path = [] := by rw [elements, skipelem_none hskip, List.map_nil]
      rw [hnil, target_nil]
      cases parent with
      | true =>
        apply ensures_seq (ensures_of_total (h.iput fun j hj => absurd hj List.not_mem_nil))
        intro _ s' h'
        exact ⟨rfl, h'⟩
      | false => exact ⟨n, rfl, h⟩
    | some x =>
      obtain ⟨element, rest⟩ := x
      obtain ⟨hcons, hrest, hempty⟩ := skipelem_some hskip
      have hlast : (elements rest = []) ↔ rest = [] := by
        rw [hempty, elements, List.map_eq_nil_iff]
      rw [hcons]
      apply ensures_seq (ensures_of_total (h.ilock ip (by simp) List.not_mem_nil))
      intro _ s1 h1
      have htype := h1.type_eq (i := ip) (n := n) (by simp) (by simp)
      show Returns s₀ (if (s1.din ip).type ≠ T_DIR then _ else _) _ s1
      rw [htype]
      by_cases hdir : (dinodeAt s₀.sb s₀.disk n).type ≠ T_DIR
      · rw [if_pos hdir, target_of_not_dir hdir]
        apply ensures_seq (ensures_of_total (h1.iunlockput List.not_mem_nil fun j hj => absurd hj List.not_mem_nil))
        intro _ s2 h2
        exact ⟨rfl, h2⟩
      · rw [if_neg hdir]
        have hdir' : (dinodeAt s₀.sb s₀.disk n).type = T_DIR := not_not.mp hdir
        by_cases hpar : parent = true ∧ rest = []
        · rw [if_pos hpar]
          obtain ⟨rfl, hnil⟩ := hpar
          rw [hlast.mpr hnil, target_last hdir']
          apply ensures_seq (ensures_of_total (h1.iunlock List.not_mem_nil))
          intro _ s2 h2
          exact ⟨n, rfl, h2⟩
        · rw [if_neg hpar, target_cons fun hc => hpar ⟨hc.1, hlast.mp hc.2⟩]
          apply ensures_seq (h1.dirlookup hsound (by simp) List.mem_cons_self List.mem_cons_self (htype.trans hdir') element)
          intro r s2 hr
          rcases r with _ | ⟨next, off⟩
          · rw [hr.1]
            apply ensures_seq (ensures_of_total (hr.2.iunlockput List.not_mem_nil fun j hj => absurd hj List.not_mem_nil))
            intro _ s3 h3
            exact ⟨rfl, h3⟩
          · obtain ⟨m, hm, h2⟩ := hr
            rw [hm]
            have h2' := h2.perm (List.Perm.swap _ _ _)
            apply ensures_seq (ensures_of_total (h2'.iunlockput List.not_mem_nil fun j hj => absurd hj List.not_mem_nil))
            intro _ s3 h3
            exact ih (by omega) h3

theorem dnamex (h : Visit p s₀ [] [] s) (hsound : Sound s₀.sb s₀.disk) (path : List UInt8) (parent : Bool) :
    Returns s₀ (Fs.dnamex p path parent)
      (Arrived p s₀ (target s₀.sb s₀.disk parent ROOTINO (elements path))) s := by
  apply ensures_seq (h.iget (by simp) hsound.root)
  intro ip s1 h1
  exact dnamexFrom hsound (Nat.lt_succ_self _) h1

theorem namei (h : Visit p s₀ [] [] s) (hsound : Sound s₀.sb s₀.disk) (path : List UInt8) :
    Returns s₀ (Fs.namei p path) (fun r s' => match r with
      | none => resolve s₀.sb s₀.disk ROOTINO (elements path) = none ∧ Visit p s₀ [] [] s'
      | some ip => ∃ m, resolve s₀.sb s₀.disk ROOTINO (elements path) = some m ∧ Visit p s₀ [(ip, m)] [] s') s := by
  apply ensures_seq (h.dnamex hsound path false)
  intro r s' hr
  rcases r with _ | ⟨ip, name⟩
  · exact ⟨Option.map_eq_none_iff.mp hr.1, hr.2⟩
  · obtain ⟨m, ht, hv⟩ := hr
    obtain ⟨m', hm, hpair⟩ := Option.map_eq_some_iff.mp ht
    obtain ⟨rfl, _⟩ := Prod.mk.inj hpair
    exact ⟨m', hm, hv⟩

end Visit

end Xv6.Fs
