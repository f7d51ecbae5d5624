import Xv6.Kernel.System

/-!
# The memory side of the system calls

What each part of `fork`, `wait` and `exec` does to the pages of one process: the pages it holds
afterwards and the free pages are together those it held before and the free pages of then, and no
other page in use, `X`, is touched.
-/

namespace Xv6.Kernel

open Coop Prog Vm Data Multiset

variable {m m' m'' : Mem} {pt tf trampoline : UInt64} {F : Nat → Option UInt64} {n : Nat}
  {X Y P P' Q : Multiset UInt64}

/-! ## Pages that change hands -/

/-- Pages `P` have become pages `P'`. -/
structure Shift (m m' : Mem) (X P P' : Multiset UInt64) : Prop where
  pages : P' + ↑m'.free = P + ↑m.free
  agree : Agree m m' X
  good : ∀ pg ∈ m'.free, IsPage pg

namespace Shift

theorem refl (h : Pool m Y) (X P : Multiset UInt64) : Shift m m X P P := ⟨rfl, .refl m X, h.good⟩

theorem trans (h : Shift m m' X P P') (h' : Shift m' m'' X P' Q) : Shift m m'' X P Q :=
  ⟨h'.pages.trans h.pages, h.agree.trans h'.agree, h'.good⟩

theorem pool (h : Shift m m' X P P') (hp : Pool m (P + X)) : Pool m' (P' + X) := by
  refine ⟨?_, h.good⟩
  have hnd := hp.nodup
  rw [← add_assoc, add_comm (m.free : Multiset UInt64), ← h.pages] at hnd
  rwa [← add_assoc, add_comm (m'.free : Multiset UInt64)]

/-- Pages that are not touched may be counted on both sides. -/
theorem frame (h : Shift m m' (Y + X) P P') : Shift m m' X (P + Y) (P' + Y) := by
  refine ⟨?_, h.agree.mono fun q hq => mem_add.mpr (.inr hq), h.good⟩
  rw [add_right_comm, h.pages, add_right_comm]

theorem frame_left (h : Shift m m' (Y + X) P P') : Shift m m' X (Y + P) (Y + P') := by
  rw [add_comm Y, add_comm Y]
  exact h.frame

end Shift

/-- An address space of `n` pages, without what is said about the other pages. -/
structure Fits (m : Mem) (pt : UInt64) (F : Nat → Option UInt64) (n : Nat) : Prop where
  shape : Shape m 2 pt
  bound : n ≤ frameVpn
  high : ∀ v, n ≤ v → leaf m pt v = F v

theorem Fits.img (h : Fits m pt F n) (hp : Pool m (img m pt n + X)) : Img m pt F n X := by
  refine ⟨⟨h.shape, ?_, hp.good⟩, h.bound, h.high⟩
  convert hp.nodup using 1
  rw [Vm.img]
  abel

theorem fits_of_img (h : Img m pt F n X) : Fits m pt F n := ⟨h.tree.shape, h.bound, h.high⟩

theorem Fits.agree_tabs (h : Fits m pt F n) (hagree : Agree m m' (tabs m 2 pt)) :
    Fits m' pt F n ∧ Vm.img m' pt n = Vm.img m pt n := by
  have hsame : Same m m' 2 pt := .of_agree hagree
  refine ⟨⟨hsame.shape h.shape, h.bound, ?_⟩, ?_⟩
  · rw [hsame.leaf]
    exact h.high
  · rw [Vm.img, Vm.img, hsame.tabs, hsame.leaf]

theorem Fits.agree (h : Fits m pt F n) (hagree : Agree m m' (Vm.img m pt n)) :
    Fits m' pt F n ∧ Vm.img m' pt n = Vm.img m pt n :=
  h.agree_tabs (hagree.mono fun _ hq => mem_add.mpr (.inl hq))

theorem shift_of_moved {n' : Nat} (h : Moved m m' pt n n' X) (hi : Img m' pt F n' Y) :
    Shift m m' X (img m pt n) (img m' pt n') := ⟨h.pages, h.agree, hi.tree.good⟩

/-! ## One page -/

theorem kalloc_shift (h : Pool m X) :
    After kalloc (fun r m' => (r = none ∧ m' = m) ∨
      ∃ pg, r = some pg ∧ Shift m m' X 0 {pg} ∧ pg ∉ X ∧ IsPage pg) m := by
  refine ensures_mono h.kalloc_after fun r m' hr => ?_
  rcases hr with hr | ⟨pg, hpg, hA⟩
  · exact .inl hr
  · have hnd := hA.pool.nodup
    rw [add_cons] at hnd
    have hnot := (nodup_cons.mp hnd).1
    rw [mem_add, not_or] at hnot
    refine .inr ⟨pg, hpg, ⟨?_, hA.agree, hA.pool.good⟩, hnot.2, hA.page⟩
    rw [zero_add, singleton_add, hA.free]

theorem kfree_shift {pg : UInt64} (h : Pool m ({pg} + X)) : After (kfree pg) (fun _ m' => Shift m m' X {pg} 0) m := by
  rw [singleton_add] at h
  refine ensures_mono h.kfree_after fun _ m' hR => ?_
  refine ⟨?_, hR.2.2, hR.1.good⟩
  rw [zero_add, singleton_add, hR.2.1]

theorem write_shift {pg : UInt64} (h : Pool m Y) (hpg : pg ∉ X) (P : Multiset UInt64) (w : Fin 512 → UInt64) :
    Shift m { m with page := Function.update m.page pg w } X P P :=
  ⟨rfl, .write hpg w, h.good⟩

/-! ## Address spaces -/

theorem uvmcreate_shift (h : Pool m X) :
    After uvmcreate (fun r m' => (r = none ∧ m' = m) ∨ ∃ pt, r = some pt ∧ Tree m' 2 pt X ∧
      leaf m' pt = (fun _ => none) ∧ Shift m m' X 0 (img m' pt 0)) m := by
  refine ensures_mono h.uvmcreate_after fun r m' hr => ?_
  rcases hr with hr | ⟨pt, hpt, hT, hleaf, hfree, hagree⟩
  · exact .inl hr
  · refine .inr ⟨pt, hpt, hT, hleaf, ?_, hagree, hT.good⟩
    rw [zero_add, hfree]

theorem takeDown_shift {sz : UInt64} (h : Fits m pt (fixedLeaves trampoline tf) n)
    (hp : Pool m (img m pt n + X)) (hsz : n = npages sz ∨ sz = 0) :
    After (unmapFrames pt >>= fun _ => uvmfree pt sz) (fun _ m' => Shift m m' X (img m pt n) 0) m := by
  refine ensures_seq (h.img hp).unmapFrames_after fun _ m1 h1 => ?_
  have hs1 := shift_of_moved h1.2 h1.1
  refine ensures_mono (uvmfree_after h1.1 hsz) fun _ m' h' => ?_
  refine hs1.trans ⟨?_, h'.2.1, h'.2.2⟩
  rw [zero_add, h'.1]

/-! ## fork and wait -/

/-- The pages of the memory of a process. -/
def spacePages (m : Mem) (x : Space) : Multiset UInt64 :=
  {x.trapframe} + img m x.pagetable (npages x.sz)

/-- The page table of a process is as its size says. -/
structure SpaceFits (m : Mem) (trampoline : UInt64) (x : Space) : Prop where
  fits : Fits m x.pagetable (fixedLeaves trampoline x.trapframe) (npages x.sz)
  frame : IsPage x.trapframe

/-- A page that is held besides `P` is not in `P` and not in `X`. -/
theorem notMem_of_pool {pg : UInt64} (h : Pool m ({pg} + P + X)) : pg ∉ P + X := by
  have hnd := h.nodup
  rw [add_assoc, singleton_add, add_cons] at hnd
  have hnot := (nodup_cons.mp hnd).1
  rw [mem_add, not_or] at hnot
  exact hnot.2

theorem forkMem_shift {x : Space} (hp : Pool m X) (hsz : npages x.sz ≤ frameVpn) :
    After (forkMem trampoline x) (fun r m' =>
      match r with
      | .noFrames => Shift m m' X 0 0
      | .noCopy => Shift m m' X 0 0
      | .child y => SpaceFits m' trampoline y ∧ Shift m m' X 0 (spacePages m' y)) m := by
  rw [forkMem]
  refine ensures_seq (kalloc_shift hp) fun r m1 hr => ?_
  rcases hr with ⟨rfl, rfl⟩ | ⟨tf, rfl, hs1, -, hframe⟩
  · exact .refl hp X 0
  have hp1 : Pool m1 ({tf} + X) := hs1.pool (by rwa [zero_add])
  refine ensures_seq (uvmcreate_shift hp1) fun r m2 hr => ?_
  rcases hr with ⟨rfl, rfl⟩ | ⟨pt, rfl, hT, hleaf, hs2⟩
  · exact ensures_seq (kfree_shift hp1) fun _ m' hs => hs1.trans hs
  refine ensures_seq (mapFrames_after hT hleaf) fun _ m3 h3 => ?_
  have hs3 := hs2.trans (shift_of_moved h3.2 h3.1)
  refine ensures_seq (uvmcopy_after (frames_fixed trampoline tf) h3.1 hsz) fun ok m4 h4 => ?_
  rcases h4 with ⟨rfl, himg, hmoved⟩ | ⟨rfl, himg, hmoved⟩
  · have hs4 := hs1.trans (by simpa using (hs3.trans (shift_of_moved hmoved himg)).frame_left)
    have hp4 := hs4.pool (by rwa [zero_add])
    have hnot := notMem_of_pool hp4
    -- only the trap frame of the child is written
    have hs5 : Shift m4 (copyFrame m4 tf x.trapframe) (img m4 pt (npages x.sz) + X) 0 0 :=
      write_shift hp4 hnot 0 _
    obtain ⟨hfits, hsame⟩ := (fits_of_img himg).agree
      (hs5.agree.mono fun q hq => mem_add.mpr (.inl hq))
    rw [if_pos rfl, ensures_bind, ensures_modify]
    refine ⟨⟨hfits, hframe⟩, hs4.trans ?_⟩
    rw [spacePages, hsame]
    exact write_shift hp4 (fun hX => hnot (mem_add.mpr (.inr hX))) _ _
  · rw [if_neg (by decide)]
    have hs4 := hs1.trans (by simpa using (hs3.trans (shift_of_moved hmoved himg)).frame_left)
    refine ensures_seq himg.unmapFrames_after fun _ m5 h5 => ?_
    have hs5 := hs4.trans (shift_of_moved h5.2 h5.1).frame_left
    have himg5 := h5.1
    rw [singleton_add] at himg5
    refine ensures_seq himg5.kfree_after fun _ m6 h6 => ?_
    obtain ⟨himg6, hsame, hfree, hagree⟩ := h6
    refine ensures_seq (uvmfree_after himg6 (.inr rfl)) fun _ m' h' => ?_
    refine hs5.trans ⟨?_, hagree.trans h'.2.1, h'.2.2⟩
    rw [h'.1, hsame, hfree, zero_add, ← singleton_add]
    abel

theorem reapMem_shift {x : Space} (h : SpaceFits m trampoline x) (hp : Pool m (spacePages m x + X)) :
    After (reapMem x) (fun _ m' => Shift m m' X (spacePages m x) 0) m := by
  have himg : Img m x.pagetable (fixedLeaves trampoline x.trapframe) (npages x.sz) (x.trapframe ::ₘ X) := by
    refine h.fits.img ?_
    convert hp using 1
    rw [spacePages, ← singleton_add]
    abel
  rw [reapMem]
  refine ensures_seq himg.unmapFrames_after fun _ m1 h1 => ?_
  refine ensures_seq h1.1.kfree_after fun _ m2 h2 => ?_
  obtain ⟨himg2, hsame, hfree, hagree⟩ := h2
  refine ensures_mono (uvmfree_after himg2 (.inl rfl)) fun _ m' h' => ?_
  have hX : Agree m m1 X := h1.2.agree.mono fun q hq => mem_cons_of_mem hq
  refine ⟨?_, (hX.trans hagree).trans h'.2.1, h'.2.2⟩
  rw [zero_add, h'.1, hsame, hfree, add_cons, h1.2.pages, spacePages,
    ← singleton_add, add_assoc]

/-! ## exec -/

/-- The pages that a process holds in `exec`, with `n` pages in the new address space. -/
def execPages (m : Mem) (e : Exec) (n : Nat) : Multiset UInt64 :=
  ↑e.argv + e.table.elim 0 fun pt => img m pt n

/-- The new page table is as its size says. -/
def ExecFits (m : Mem) (trampoline tf : UInt64) (e : Exec) (n : Nat) : Prop :=
  ∀ pt, e.table = some pt → Fits m pt (fixedLeaves trampoline tf) n

theorem freeArgs_shift {argv : List UInt64} (hp : Pool m (↑argv + X)) :
    After (freeArgs argv) (fun _ m' => Shift m m' X ↑argv 0) m := by
  induction argv generalizing m with
  | nil => exact .refl hp X _
  | cons pg rest ih =>
    rw [freeArgs]
    rw [← cons_coe, ← singleton_add] at hp ⊢
    rw [add_assoc] at hp
    refine ensures_seq (kfree_shift hp) fun _ m1 hs1 => ?_
    have hs := hs1.frame
    have hp1 := hs1.pool hp
    rw [zero_add] at hs hp1
    exact ensures_mono (ih hp1) fun _ m' hs' => hs.trans hs'

theorem fetchArgs_shift {args : List Arg} {argv : List UInt64} (hp : Pool m (↑argv + X)) :
    After (fetchArgs n args argv) (fun r m' => Shift m m' X ↑argv ↑r.2) m := by
  induction n generalizing m args argv with
  | zero => exact .refl hp X _
  | succ n ih =>
    match args with
    | [] => exact .refl hp X _
    | .fault :: _ => exact .refl hp X _
    | .str ok page :: rest =>
      rw [fetchArgs]
      refine ensures_seq (kalloc_shift hp) fun r m1 hr => ?_
      rcases hr with ⟨rfl, rfl⟩ | ⟨pg, rfl, hs1, hnot, -⟩
      · exact .refl hp X _
      have hX : pg ∉ X := fun hpg => hnot (mem_add.mpr (.inr hpg))
      have hs : Shift m m1 X ↑argv ↑(argv ++ [pg]) := by
        have h := hs1.frame_left
        rwa [add_zero, ← coe_singleton, coe_add] at h
      have hs2 := hs.trans (write_shift (hs.pool hp) hX _ page)
      dsimp only
      rw [ensures_bind, ensures_modify]
      cases ok with
      | true =>
        exact ensures_mono (ih (hs2.pool hp)) fun r m' hs' => hs2.trans hs'
      | false => exact hs2

/-- What is known of a process in `exec`. -/
structure ExecOk (m : Mem) (trampoline tf : UInt64) (e : Exec) : Prop where
  fits : ExecFits m trampoline tf e (npages e.sz)
  sz : e.table = none → e.sz = 0

/-- A part of `exec` has ended: the process holds what `e` says, or nothing. -/
def ExecPost (trampoline tf : UInt64) (X P : Multiset UInt64) (m : Mem) (r : Option Exec) (m' : Mem) : Prop :=
  match r with
  | none => Shift m m' X P 0
  | some e => ExecOk m' trampoline tf e ∧ Shift m m' X P (execPages m' e (npages e.sz))

theorem execPages_none {e : Exec} (h : e.table = none) : execPages m e n = ↑e.argv := by
  rw [execPages, h]
  exact add_zero _

theorem execPages_some {e : Exec} (h : e.table = some pt) : execPages m e n = ↑e.argv + img m pt n := by
  rw [execPages, h]
  rfl

theorem execStart_post {args : List Arg} (hp : Pool m X) :
    After (execStart args) (ExecPost trampoline tf X 0 m) m := by
  rw [execStart]
  refine ensures_seq (@fetchArgs_shift m MAXARG X args [] (by rwa [coe_nil, zero_add])) ?_
  intro r m1 hs1
  rw [coe_nil] at hs1
  have hp1 := hs1.pool (by rwa [zero_add])
  cases hr : r.1 with
  | true =>
    simp only [hr, if_true]
    refine ⟨⟨nofun, fun _ => rfl⟩, ?_⟩
    rw [execPages_none rfl]
    exact hs1
  | false =>
    simp only [hr, Bool.false_eq_true, if_false]
    exact ensures_seq (freeArgs_shift hp1) fun _ m' hs' => hs1.trans hs'

/-- The failure exits give everything back. If the size has been set to 0 after a failed allocation,
they return only if nothing was mapped. -/
theorem execFail_shift {e : Exec} (h : ExecFits m trampoline tf e n) (hp : Pool m (execPages m e n + X))
    (hsz : n = npages e.sz ∨ e.sz = 0) :
    After (execFail e) (fun r m' => r = none ∧ Shift m m' X (execPages m e n) 0) m := by
  rw [execFail]
  cases htable : e.table with
  | none =>
    rw [execPages_none htable] at hp ⊢
    exact ensures_seq (freeArgs_shift hp) fun _ m' hs => ⟨rfl, hs⟩
  | some pt =>
    rw [execPages_some htable] at hp ⊢
    have hp' : Pool m (img m pt n + (↑e.argv + X)) := by
      convert hp using 1
      abel
    have hdown := takeDown_shift (h pt htable) hp' hsz
    rw [After, ensures_bind] at hdown
    refine (ensures_bind _ _ _ _).mpr (ensures_mono hdown fun _ m1 h1 => ?_)
    refine ensures_seq h1 fun _ m2 hs2 => ?_
    have hs := hs2.frame_left
    have hp2 := hs2.pool hp'
    rw [zero_add] at hp2
    rw [add_zero] at hs
    exact ensures_seq (freeArgs_shift hp2) fun _ m' hs' => ⟨rfl, hs.trans hs'⟩

theorem execFail_post {e : Exec} (h : ExecFits m' trampoline tf e n) (hp : Pool m (P + X))
    (hs : Shift m m' X P (execPages m' e n)) (hsz : n = npages e.sz ∨ e.sz = 0) :
    After (execFail e) (ExecPost trampoline tf X P m) m' := by
  refine ensures_mono (execFail_shift h (hs.pool hp) hsz) fun r m'' hr => ?_
  obtain ⟨rfl, hs'⟩ := hr
  exact hs.trans hs'

theorem execCreate_post {e : Exec} (h : ExecOk m trampoline tf e) (htable : e.table = none)
    (hp : Pool m (execPages m e (npages e.sz) + X)) :
    After (execCreate trampoline tf e) (ExecPost trampoline tf X (execPages m e (npages e.sz)) m) m := by
  have hargs := hp
  rw [execPages_none htable] at hargs
  rw [execCreate]
  refine ensures_seq (uvmcreate_shift hargs) fun r m1 hr => ?_
  rcases hr with ⟨rfl, rfl⟩ | ⟨pt, rfl, hT, hleaf, hs1⟩
  · exact execFail_post h.fits hp (.refl hp X _) (.inl rfl)
  · refine ensures_seq (mapFrames_after hT hleaf) fun _ m' h' => ?_
    have hzero : npages e.sz = 0 := by
      rw [h.sz htable]
      rfl
    refine ⟨⟨fun pt' hpt' => ?_, nofun⟩, ?_⟩
    · cases hpt'
      show Fits m' pt (fixedLeaves trampoline tf) (npages e.sz)
      rw [hzero]
      exact fits_of_img h'.1
    · have hs := (hs1.trans (shift_of_moved h'.2 h'.1)).frame_left
      rw [add_zero] at hs
      rw [execPages_none htable]
      show Shift m m' X ↑e.argv (↑e.argv + img m' pt (npages e.sz))
      rw [hzero]
      exact hs

/-- The new address space after `uvmalloc`, with the rest of what the process holds. -/
theorem execAlloc_after {e : Exec} {oldsz newsz perm : UInt64} (h : ExecOk m trampoline tf e)
    (htable : e.table = some pt) (hp : Pool m (execPages m e (npages e.sz) + X))
    (hold : npages oldsz = npages e.sz) (hperm : perm.toNat < 1024) :
    After (uvmalloc pt oldsz newsz perm) (fun r m' => ∃ n, (n = npages r ∨ r = 0) ∧
      Img m' pt (fixedLeaves trampoline tf) n (↑e.argv + X) ∧
      Shift m m' X (execPages m e (npages e.sz)) (↑e.argv + img m' pt n)) m := by
  rw [execPages_some htable] at hp ⊢
  have himg : Img m pt (fixedLeaves trampoline tf) (npages oldsz) (↑e.argv + X) := by
    rw [hold]
    refine Fits.img (h.fits pt htable) ?_
    convert hp using 1
    abel
  refine ensures_mono (uvmalloc_after (frames_fixed trampoline tf) hperm himg) fun r m' hr => ?_
  obtain ⟨n, himg', hmoved, hn⟩ := hr
  refine ⟨n, hn, himg', ?_⟩
  rw [← hold]
  exact (shift_of_moved hmoved himg').frame_left

/-- The process goes on with a new size, or `uvmalloc` has failed. -/
theorem execGrow_post (e e' : Exec) {sz : UInt64} (hp : Pool m (P + X)) (htable : e'.table = some pt)
    (hargv : e'.argv = e.argv) (hsz : e'.sz = sz) (hn : n = npages sz ∨ sz = 0)
    (himg : Img m' pt (fixedLeaves trampoline tf) n (↑e.argv + X))
    (hs : Shift m m' X P (↑e.argv + img m' pt n)) :
    (sz = 0 → After (execFail e') (ExecPost trampoline tf X P m) m') ∧
      (sz ≠ 0 → ExecPost trampoline tf X P m (some e') m') := by
  have hfits : ExecFits m' trampoline tf e' n := by
    intro pt' hpt'
    obtain rfl : pt = pt' := Option.some.inj (htable.symm.trans hpt')
    exact fits_of_img himg
  have hs' : Shift m m' X P (execPages m' e' n) := by
    rw [execPages_some htable, hargv]
    exact hs
  constructor
  · intro hzero
    exact execFail_post hfits hp hs' (.inr (hsz.trans hzero))
  · intro hne
    obtain rfl : n = npages e'.sz := by
      rw [hsz]
      exact hn.resolve_right hne
    exact ⟨⟨hfits, fun hnone => by rw [htable] at hnone; cases hnone⟩, hs'⟩

theorem flags2perm_lt (ph : Segment) : (flags2perm ph).toNat < 1024 := by
  unfold flags2perm
  cases ph.exec <;> cases ph.write <;> cases ph.read <;> decide

theorem execSegment_post {e : Exec} {ph : Segment} (h : ExecOk m trampoline tf e)
    (htable : e.table = some pt) (hp : Pool m (execPages m e (npages e.sz) + X)) :
    After (execSegment ph pt e) (ExecPost trampoline tf X (execPages m e (npages e.sz)) m) m := by
  rw [execSegment]
  split
  · exact execFail_post h.fits hp (.refl hp X _) (.inl rfl)
  · refine ensures_seq (execAlloc_after h htable hp rfl (flags2perm_lt ph)) fun sz m1 h1 => ?_
    obtain ⟨n, hn, himg, hs⟩ := h1
    by_cases hzero : sz = 0
    · rw [if_pos hzero]
      exact (execGrow_post e { e with sz := 0 } hp htable rfl rfl (.inr rfl) himg hs).1 rfl
    · rw [if_neg hzero]
      exact (execGrow_post e { e with sz := sz } hp htable rfl rfl hn himg hs).2 hzero

theorem execStack_post {e : Exec} (h : ExecOk m trampoline tf e) (htable : e.table = some pt)
    (hp : Pool m (execPages m e (npages e.sz) + X)) :
    After (execStack pt e) (ExecPost trampoline tf X (execPages m e (npages e.sz)) m) m := by
  have hup := toNat_PGROUNDUP_npages (h.fits pt htable).bound
  have hold : npages (PGROUNDUP e.sz) = npages e.sz := by
    rw [npages, hup]
    omega
  rw [execStack]
  refine ensures_seq (execAlloc_after h htable hp hold (by decide)) fun sz m1 h1 => ?_
  obtain ⟨n, hn, himg, hs⟩ := h1
  by_cases hzero : sz = 0
  · rw [if_pos hzero]
    exact (execGrow_post e { e with sz := 0 } hp htable rfl rfl (.inr rfl) himg hs).1 rfl
  · rw [if_neg hzero]
    obtain rfl : n = npages sz := hn.resolve_right hzero
    have hguard : (sz - 2 * 4096).toNat < MAXVA → vpn (sz - 2 * 4096) < npages sz := by
      have htwo : (2 * 4096 : UInt64).toNat = 8192 := rfl
      have hlt := sz.toNat_lt
      unfold vpn npages
      rw [UInt64.toNat_sub, htwo]
      lia
    refine ensures_seq (himg.punch_after hguard) fun _ m' h' => ?_
    have hs' := hs.trans (shift_of_moved h'.2 h'.1).frame_left
    exact (execGrow_post e { e with sz := sz, stacked := true } hp htable rfl rfl (.inl rfl) h'.1 hs').2
      hzero

/-- The old image is given back, the new one stays. -/
theorem execCommit_shift {x : Space} {e : Exec} {entry sp : UInt64} (hx : SpaceFits m trampoline x)
    (h : ExecOk m trampoline x.trapframe e) (htable : e.table = some pt)
    (hp : Pool m (spacePages m x + execPages m e (npages e.sz) + X)) :
    After (execCommit x e entry sp) (fun _ m' =>
      SpaceFits m' trampoline ⟨x.trapframe, pt, e.sz⟩ ∧
      Shift m m' X (spacePages m x + execPages m e (npages e.sz))
        (spacePages m' ⟨x.trapframe, pt, e.sz⟩)) m := by
  rw [execPages_some htable] at hp ⊢
  have hp0 : Pool m (img m x.pagetable (npages x.sz) + ({x.trapframe} + (↑e.argv + img m pt (npages e.sz) + X))) := by
    convert hp using 1
    rw [spacePages]
    abel
  have hdown := takeDown_shift hx.fits hp0 (.inl rfl)
  rw [After, ensures_bind] at hdown
  rw [execCommit]
  refine (ensures_bind _ _ _ _).mpr (ensures_mono hdown fun _ _ h1 => ?_)
  refine ensures_seq h1 fun _ m1 hs1 => ?_
  simp only [ensures_bind, ensures_modify]
  have hp1 := hs1.pool hp0
  rw [zero_add, ← add_assoc] at hp1
  -- the trap frame is none of the other pages
  have hnot := notMem_of_pool hp1
  generalize hm2 : ((m1.setWord x.trapframe 3 entry).setWord x.trapframe 6 sp).setWord x.trapframe 15 sp
    = m2
  have hwrite : Agree m1 m2 (↑e.argv + img m pt (npages e.sz) + X) := by
    rw [← hm2]
    exact ((Agree.setWord hnot).trans (.setWord hnot)).trans (.setWord hnot)
  have hfree2 : m2.free = m1.free := by
    rw [← hm2]
    rfl
  have hp2 : Pool m2 (↑e.argv + ({x.trapframe} + img m pt (npages e.sz) + X)) := by
    refine ⟨?_, ?_⟩
    · rw [hfree2]
      convert hp1.nodup using 1
      abel
    · rw [hfree2]
      exact hp1.good
  refine ensures_mono (freeArgs_shift hp2) fun _ m' hs3 => ?_
  have hnew : ∀ {S : Multiset UInt64}, S ⊆ img m pt (npages e.sz) + X → Agree m m' S := by
    intro S hS
    refine ((hs1.agree.mono fun q hq => ?_).trans (hwrite.mono fun q hq => ?_)).trans
      (hs3.agree.mono fun q hq => ?_)
    · have := hS hq
      simp only [mem_add] at this ⊢
      tauto
    · have := hS hq
      simp only [mem_add] at this ⊢
      tauto
    · have := hS hq
      simp only [mem_add] at this ⊢
      tauto
  obtain ⟨hfits, hsame⟩ := (h.fits pt htable).agree (hnew fun q hq => mem_add.mpr (.inl hq))
  refine ⟨⟨hfits, hx.frame⟩, ?_, hnew fun q hq => mem_add.mpr (.inr hq), hs3.good⟩
  have hfree1 := hs1.pages
  have hfree3 := hs3.pages
  rw [zero_add] at hfree1 hfree3
  rw [spacePages, spacePages, hsame, hfree3, hfree2, hfree1]
  abel

theorem mem_span {L : Nat → Option UInt64} {v : Nat} {e : UInt64} (hv : v < n) (he : L v = some e) :
    PTE2PA e ∈ span L 0 n := by
  refine mem_sum.mpr ⟨v, Finset.mem_Ico.mpr ⟨Nat.zero_le v, hv⟩, ?_⟩
  rw [he]
  exact mem_singleton_self _

/-- Where the leaves are, apart from that of the trampoline. -/
theorem leaf_cases {v : Nat} {e : UInt64} (h : Fits m pt (fixedLeaves trampoline tf) n)
    (htf : IsPage tf) (hleaf : leaf m pt v = some e) (htramp : v ≠ frameVpn + 1) :
    (v < n ∧ PTE2PA e ∈ span (leaf m pt) 0 n) ∨ (v = frameVpn ∧ PTE2PA e = tf) := by
  rcases Nat.lt_or_ge v n with hlt | hge
  · exact .inl ⟨hlt, mem_span hlt hleaf⟩
  · have hfixed := h.high v hge
    rw [hleaf, fixedLeaves, if_neg htramp] at hfixed
    by_cases hframe : v = frameVpn
    · rw [if_pos hframe] at hfixed
      refine .inr ⟨hframe, ?_⟩
      rw [Option.some.inj hfixed]
      exact PTE2PA_leaf htf (by decide)
    · rw [if_neg hframe] at hfixed
      cases hfixed

/-- Where the leaves are that a user program may use. -/
theorem userLeaf_cases {v : Nat} {e : UInt64} (h : Fits m pt (fixedLeaves trampoline tf) n)
    (htf : IsPage tf) (hleaf : leaf m pt v = some e) (huser : Has e PTE_U) :
    (v < n ∧ PTE2PA e ∈ span (leaf m pt) 0 n) ∨ (v = frameVpn ∧ PTE2PA e = tf) := by
  refine leaf_cases h htf hleaf fun htramp => ?_
  have hbound := h.bound
  have hfixed := h.high v (by omega)
  rw [hleaf, fixedLeaves, if_pos htramp] at hfixed
  rw [Option.some.inj hfixed, UInt64.or_assoc, has_PA2PTE (by decide) (by decide)] at huser
  exact absurd huser (by decide)

theorem walkaddr_after (va : UInt64) :
    After (walkaddr pt va) (fun pa m' => m' = m ∧
      (pa ≠ 0 → ∃ e, leaf m pt (vpn va) = some e ∧ Has e PTE_U ∧ PTE2PA e = pa)) m := by
  have hzero : m = m ∧ ((0 : UInt64) ≠ 0 → ∃ e, leaf m pt (vpn va) = some e ∧ Has e PTE_U ∧ PTE2PA e = 0) :=
    ⟨rfl, fun h => absurd rfl h⟩
  rw [walkaddr]
  by_cases hva : MAXVA ≤ va.toNat
  · rw [if_pos hva]
    exact hzero
  rw [if_neg hva, walk, if_neg hva]
  refine ensures_seq (walkFrom_find va 2 pt m) fun r m1 h1 => ?_
  obtain ⟨rfl, hr⟩ := h1
  cases r with
  | none => exact hzero
  | some p =>
    obtain ⟨t, i⟩ := p
    rw [ensures_bind, ensures_gets]
    by_cases hv : Has (m1.page t i) PTE_V
    · rw [if_neg (not_not.mpr hv)]
      by_cases hu : Has (m1.page t i) PTE_U
      · rw [if_neg (not_not.mpr hu)]
        refine ⟨rfl, fun _ => ⟨m1.page t i, ?_, hu, rfl⟩⟩
        rw [leaf_vpn (Nat.lt_of_not_le hva), lookup, ← hr, Option.bind_some, if_pos hv]
      · rw [if_pos hu]
        exact hzero
    · rw [if_pos hv]
      exact hzero

/-- Writing to user memory touches one page of the address space, or the trap frame. -/
theorem writeUser_after {va : UInt64} {page : Fin 512 → UInt64}
    (h : Fits m pt (fixedLeaves trampoline tf) n) (htf : IsPage tf) :
    After (writeUser pt va page) (fun _ m' => m' = m ∨
      ∃ w, (w ∈ span (leaf m pt) 0 n ∨ w = tf) ∧
        m' = { m with page := Function.update m.page w page }) m := by
  rw [writeUser]
  refine ensures_seq (walkaddr_after va) fun pa m1 h1 => ?_
  obtain ⟨rfl, hpa⟩ := h1
  by_cases hzero : pa = 0
  · rw [if_pos hzero]
    exact .inl rfl
  · rw [if_neg hzero]
    obtain ⟨e, hleaf, huser, rfl⟩ := hpa hzero
    refine .inr ⟨PTE2PA e, ?_, rfl⟩
    rcases userLeaf_cases h htf hleaf huser with ⟨-, hmem⟩ | ⟨-, hframe⟩
    · exact .inl hmem
    · exact .inr hframe

end Xv6.Kernel
