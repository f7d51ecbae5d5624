import Xv6.Kernel.Runs
import Xv6.Process.Guarantees

/-!
# Boot

`main` up to the scheduler, as far as pages are concerned: `kinit` frees all the pages behind the kernel,
`kvminit` and `procinit` build the kernel page table with a stack for every slot, `userinit` makes the
first process. A boot that does not panic ends in a state in which every page has one owner.
-/

namespace Xv6.Kernel

open Coop Prog Vm Data Process Function Multiset

/-! ## The code -/

/-- The loop frees whole pages only. -/
def freerange (paStart paEnd : UInt64) : Prog Mem Unit :=
  let p := PGROUNDUP paStart
  if paEnd ≤ paStart then Prog.panic "freerange: empty"
  else if PHYSTOP < paEnd.toNat then Prog.panic "freerange: end out of bounds"
  else loop (fun i => kfree (p + 4096 * UInt64.ofNat i)) 0 ((paEnd.toNat - p.toNat) / PGSIZE)

def kinit : Prog Mem Unit := do
  let kend ← gets (·.kend)
  freerange kend (UInt64.ofNat PHYSTOP)

def UART0 : UInt64 := 0x10000000
def VIRTIO0 : UInt64 := 0x10001000
def PLIC : UInt64 := 0x0c000000

def kvmmap (kpgtbl va pa sz perm : UInt64) : Prog Mem Unit := do
  let ok ← mappages kpgtbl va sz pa perm
  if ok then pure () else Prog.panic "kvmmap"

/-- `kvmmake` does not look at the result of `kalloc`; the write to address 0 that follows is a fault. -/
def kvmmake (etext trampoline : UInt64) : Prog Mem UInt64 := do
  match ← kalloc with
  | none => Prog.panic "store fault"
  | some kpgtbl => do
    modify (·.fill kpgtbl 0)
    kvmmap kpgtbl UART0 UART0 4096 (PTE_R ||| PTE_W)
    kvmmap kpgtbl VIRTIO0 VIRTIO0 4096 (PTE_R ||| PTE_W)
    kvmmap kpgtbl PLIC PLIC 0x400000 (PTE_R ||| PTE_W)
    kvmmap kpgtbl (UInt64.ofNat KERNBASE) (UInt64.ofNat KERNBASE) (etext - UInt64.ofNat KERNBASE)
      (PTE_R ||| PTE_X)
    kvmmap kpgtbl etext etext (UInt64.ofNat PHYSTOP - etext) (PTE_R ||| PTE_W)
    kvmmap kpgtbl (UInt64.ofNat TRAMPOLINE) trampoline 4096 (PTE_R ||| PTE_X)
    pure kpgtbl

/-- The kernel stacks; what `procinit` does to the process table is in `Process.procinit`. -/
def mapStacks (kpgtbl : UInt64) : Prog Mem Unit :=
  loop (fun i => do
    match ← kalloc with
    | none => Prog.panic "procinit: kernel-stack allocation"
    | some pa => kvmmap kpgtbl (UInt64.ofNat (KSTACK i)) pa 4096 (PTE_R ||| PTE_W)) 0 NPROC

/-- Boot up to `userinit`; the result is the kernel page table. -/
def kernelInit (etext trampoline : UInt64) : Prog Mem UInt64 := do
  kinit
  let kpgtbl ← kvmmake etext trampoline
  mapStacks kpgtbl
  pure kpgtbl

/-- The trap frame of the first process: its 36 words are cleared, then three are set. -/
def firstFrame (m : Mem) (tf usertrap : UInt64) : Mem :=
  let frame : Fin 512 → UInt64 := fun i => if i.val < 36 then 0 else m.page tf i
  let frame := update frame 1 (UInt64.ofNat (KSTACK 0) + 4096)
  let frame := update frame 2 usertrap
  { m with page := update m.page tf (update frame 3 0) }

/-- The memory of the first process, whose program is the page `initcode`. -/
def userinitMem (trampoline usertrap : UInt64) (initcode : Fin 512 → UInt64) : Prog Mem Space := do
  match ← kalloc with
  | none => Prog.panic "userinit: allocproc"
  | some tf =>
    match ← uvmcreate with
    | none => Prog.panic "userinit: allocproc"
    | some pt => do
      mapFrames trampoline pt tf
      let ok ← uvmfirst pt initcode
      if ok then do
        modify (firstFrame · tf usertrap)
        pure ⟨tf, pt, 4096⟩
      else Prog.panic "userinit: uvmfirst"

def start (trampoline : UInt64) (x : Space) (m : Mem) : Sys where
  ps := userinit procinit
  mem := m
  trampoline := trampoline
  space := update (fun _ => none) 0 (some x)
  exec := fun _ => none
  file := fun _ => ⟨0, none⟩
  ofile := fun _ _ => none

/-! ## The pages there are -/

/-- A page of `[PGROUNDUP(end), PHYSTOP)`. -/
def InRam (kend pg : UInt64) : Prop :=
  pg.toNat % PGSIZE = 0 ∧ (PGROUNDUP kend).toNat ≤ pg.toNat ∧ pg.toNat < PHYSTOP

instance (kend pg : UInt64) : Decidable (InRam kend pg) := inferInstanceAs (Decidable (_ ∧ _ ∧ _))

/-- The kernel with page table `kt` is set up and has left the other pages free. -/
structure Booted (kend kt : UInt64) (m : Mem) : Prop where
  shape : Shape m 2 kt
  pages : ∀ pg, (↑m.free + kernelPages m kt).count pg = if InRam kend pg then 1 else 0

variable {m m' : Mem} {kend kt etext trampoline usertrap : UInt64} {X : Multiset UInt64}

theorem InRam.isPage {pg : UInt64} (h : InRam kend pg) : IsPage pg :=
  ⟨h.1, by have := h.2.2; lia⟩

theorem nodup_of_count {S : Multiset UInt64} (h : ∀ pg, S.count pg = if InRam kend pg then 1 else 0) : S.Nodup := by
  rw [nodup_iff_count_le_one]
  intro pg
  rw [h pg]
  split <;> omega

theorem inRam_of_count {S : Multiset UInt64} {pg : UInt64}
    (h : ∀ pg, S.count pg = if InRam kend pg then 1 else 0) (hpg : pg ∈ S) : InRam kend pg := by
  by_contra hram
  have hcount := h pg
  rw [if_neg hram] at hcount
  exact count_eq_zero.mp hcount hpg

/-! ## kinit -/

theorem freerange_after {a b : UInt64} (hfree : m.free = []) :
    After (freerange a b) (fun _ m' => ∀ pg, (m'.free : Multiset UInt64).count pg =
      if pg.toNat % PGSIZE = 0 ∧ (PGROUNDUP a).toNat ≤ pg.toNat ∧ pg.toNat + PGSIZE ≤ b.toNat
      then 1 else 0) m := by
  rw [freerange]
  by_cases hempty : b ≤ a
  · rw [if_pos hempty]
    trivial
  by_cases htop : PHYSTOP < b.toNat
  · rw [if_neg hempty, if_pos htop]
    trivial
  rw [if_neg hempty, if_neg htop]
  have hab : a.toNat < b.toNat := UInt64.lt_iff_toNat_lt.mp (UInt64.not_le.mp hempty)
  have hstart : (PGROUNDUP a).toNat % 4096 = 0 := by
    rw [toNat_PGROUNDUP (by lia)]
    omega
  refine ensures_mono (ensures_loop (fun i m' => ∀ pg, (m'.free : Multiset UInt64).count pg =
    if pg.toNat % 4096 = 0 ∧ (PGROUNDUP a).toNat ≤ pg.toNat ∧ pg.toNat < (PGROUNDUP a).toNat + 4096 * i
    then 1 else 0) ?_ ?_) ?_
  · intro i m1 _ hi hI
    refine kfree_after fun hpage pg => ?_
    have hsize : (4096 : UInt64).toNat = 4096 := rfl
    have hnew : (PGROUNDUP a + 4096 * UInt64.ofNat i).toNat = (PGROUNDUP a).toNat + 4096 * i := by
      rw [UInt64.toNat_add, UInt64.toNat_mul, UInt64.toNat_ofNat', hsize]
      lia
    rw [release_free, count_add, hI pg, count_singleton]
    by_cases heq : pg = PGROUNDUP a + 4096 * UInt64.ofNat i
    · have hpg := congrArg UInt64.toNat heq
      rw [hnew] at hpg
      rw [if_pos heq, if_neg (by omega), if_pos (by omega)]
    · have hpg : pg.toNat ≠ (PGROUNDUP a).toNat + 4096 * i := by
        intro h
        rw [← hnew] at h
        exact heq (UInt64.toNat_inj.mp h)
      rw [if_neg heq, Nat.zero_add]
      refine if_congr ?_ rfl rfl
      omega
  · intro pg
    rw [hfree, if_neg (by omega)]
    rfl
  · intro _ m' h pg
    rw [h pg, Nat.zero_add]
    refine if_congr ?_ rfl rfl
    lia

theorem kinit_after (hfree : m.free = []) :
    After kinit (fun _ m' => ∀ pg, (m'.free : Multiset UInt64).count pg =
      if InRam m.kend pg then 1 else 0) m := by
  rw [kinit, After, ensures_bind, ensures_gets]
  refine ensures_mono (freerange_after hfree) fun _ m' h pg => ?_
  rw [h pg]
  refine if_congr ?_ rfl rfl
  have hstop : (UInt64.ofNat PHYSTOP).toNat = PHYSTOP := rfl
  rw [hstop, InRam]
  lia

/-! ## The kernel page table -/

variable {va pa sz perm : UInt64}

theorem mapLoop_kept {n : Nat} (hT : Vm.Tree m 2 kt X) (hrwx : Has perm (PTE_R ||| PTE_W ||| PTE_X)) :
    After (mapLoop kt perm n va pa) (fun _ m' => Kept m m' 2 kt X) m := by
  induction n generalizing m va pa with
  | zero => exact ensures_mono (mapPage_after hT hrwx) fun _ _ hM => hM.kept
  | succ n ih =>
    rw [mapLoop]
    refine ensures_seq (mapPage_after hT hrwx) fun ok m1 hM => ?_
    cases ok with
    | true => exact ensures_mono (ih (hM.kept.tree hT)) fun _ _ hK => hM.kept.trans hK
    | false => exact hM.kept

theorem kvmmap_kept (hT : Vm.Tree m 2 kt X) (hrwx : Has perm (PTE_R ||| PTE_W ||| PTE_X)) :
    After (kvmmap kt va pa sz perm) (fun _ m' => Kept m m' 2 kt X) m := by
  rw [kvmmap, mappages]
  by_cases hsz : sz = 0
  · rw [if_pos hsz]
    trivial
  rw [if_neg hsz]
  refine ensures_seq (mapLoop_kept hT hrwx) fun ok m' hK => ?_
  cases ok with
  | true => exact hK
  | false => trivial

theorem kvmmake_after (hp : Pool m X) :
    After (kvmmake etext trampoline) (fun kt m' => Vm.Tree m' 2 kt X ∧
      tabs m' 2 kt + ↑m'.free = ↑m.free) m := by
  rw [kvmmake]
  refine ensures_seq hp.kalloc_after fun r m1 hr => ?_
  rcases hr with ⟨rfl, rfl⟩ | ⟨kt, rfl, hA⟩
  · trivial
  obtain ⟨hT, -, hfree, -⟩ := hA.table
  dsimp only
  rw [ensures_bind, ensures_modify]
  refine ensures_seq (kvmmap_kept hT (by decide)) fun _ m2 h2 => ?_
  have hT2 := h2.tree hT
  refine ensures_seq (kvmmap_kept hT2 (by decide)) fun _ m3 h3 => ?_
  have hT3 := h3.tree hT2
  refine ensures_seq (kvmmap_kept hT3 (by decide)) fun _ m4 h4 => ?_
  have hT4 := h4.tree hT3
  refine ensures_seq (kvmmap_kept hT4 (by decide)) fun _ m5 h5 => ?_
  have hT5 := h5.tree hT4
  generalize UInt64.ofNat PHYSTOP - etext = size
  refine ensures_seq (kvmmap_kept hT5 (by decide)) fun _ m6 h6 => ?_
  have hT6 := h6.tree hT5
  refine ensures_seq (kvmmap_kept hT6 (by decide)) fun _ m7 h7 => ?_
  refine ⟨h7.tree hT6, ?_⟩
  rw [h7.pages, h6.pages, h5.pages, h4.pages, h3.pages, h2.pages]
  exact hfree.symm

/-! ## The kernel stacks -/

abbrev stackVpn (i : Nat) : Nat := KSTACK i / PGSIZE

theorem stackVpn_inj {i j : Nat} (hi : i < NPROC) (h : stackVpn i = stackVpn j) : i = j := by
  unfold stackVpn KSTACK at h
  lia

theorem vpn_kstack (i : Nat) : vpn (UInt64.ofNat (KSTACK i)) = stackVpn i := by
  have hlt : KSTACK i < 2 ^ 64 := by
    unfold KSTACK
    lia
  rw [vpn, UInt64.toNat_ofNat', Nat.mod_eq_of_lt hlt]

/-- The pages of the first `n` kernel stacks. -/
def firstStacks (m : Mem) (kt : UInt64) (n : Nat) : Multiset UInt64 :=
  ∑ i ∈ Finset.range n, pageOf (leaf m kt (stackVpn i))

theorem firstStacks_congr {n : Nat} (h : ∀ i, i < n → leaf m' kt (stackVpn i) = leaf m kt (stackVpn i)) :
    firstStacks m' kt n = firstStacks m kt n := by
  refine Finset.sum_congr rfl fun i hi => ?_
  rw [h i (Finset.mem_range.mp hi)]

theorem firstStacks_succ (m : Mem) (kt : UInt64) (n : Nat) :
    firstStacks m kt (n + 1) = firstStacks m kt n + pageOf (leaf m kt (stackVpn n)) :=
  Finset.sum_range_succ _ _

theorem stackPages_eq (m : Mem) (kt : UInt64) : stackPages m kt = firstStacks m kt NPROC := by
  rw [stackPages, total, firstStacks]
  exact Fin.sum_univ_eq_sum_range (fun i => pageOf (leaf m kt (stackVpn i))) NPROC

theorem mapStack_after {i : Nat} (hi : i < NPROC) (hpa : IsPage pa)
    (hT : Vm.Tree m 2 kt (pa ::ₘ (firstStacks m kt i + X))) :
    After (kvmmap kt (UInt64.ofNat (KSTACK i)) pa 4096 (PTE_R ||| PTE_W)) (fun _ m' =>
      Vm.Tree m' 2 kt (firstStacks m' kt (i + 1) + X) ∧
      firstStacks m' kt (i + 1) = pa ::ₘ firstStacks m kt i ∧
      tabs m' 2 kt + ↑m'.free = tabs m 2 kt + ↑m.free) m := by
  have haligned : (UInt64.ofNat (KSTACK i)).toNat % 4096 = 0 := by
    rw [UInt64.toNat_ofNat', KSTACK]
    lia
  rw [kvmmap, mappages_page haligned]
  refine ensures_seq (mapPage_after hT (by decide)) fun ok m' hM => ?_
  cases ok with
  | false => trivial
  | true =>
    have hleaf := hM.done rfl
    rw [vpn_kstack] at hleaf
    have hstacks : firstStacks m' kt (i + 1) = pa ::ₘ firstStacks m kt i := by
      rw [firstStacks_succ, hleaf, update_self, pageOf, Option.elim_some,
        PTE2PA_leaf hpa (by decide), add_comm, singleton_add]
      refine congrArg _ (firstStacks_congr fun j hj => ?_)
      rw [hleaf, update_of_ne]
      intro heq
      exact Nat.ne_of_gt hj (stackVpn_inj hi heq.symm)
    refine ⟨?_, hstacks, hM.kept.pages⟩
    rw [hstacks, cons_add]
    exact hM.kept.tree hT

theorem mapStacks_after (hT : Vm.Tree m 2 kt X) :
    After (mapStacks kt) (fun _ m' => Vm.Tree m' 2 kt (firstStacks m' kt NPROC + X) ∧
      firstStacks m' kt NPROC + (tabs m' 2 kt + ↑m'.free) = tabs m 2 kt + ↑m.free) m := by
  rw [mapStacks]
  refine ensures_mono (ensures_loop (fun i m' => Vm.Tree m' 2 kt (firstStacks m' kt i + X) ∧
    firstStacks m' kt i + (tabs m' 2 kt + ↑m'.free) = tabs m 2 kt + ↑m.free) ?_ ?_) ?_
  · intro i m1 _ hi hI
    obtain ⟨hT1, hpages1⟩ := hI
    have hp1 : Pool m1 (tabs m1 2 kt + (firstStacks m1 kt i + X)) := by
      refine ⟨?_, hT1.good⟩
      convert hT1.nodup using 1
      abel
    refine ensures_seq hp1.kalloc_after fun r m2 hr => ?_
    rcases hr with ⟨rfl, rfl⟩ | ⟨pa, rfl, hA⟩
    · trivial
    have hsame : Same m1 m2 2 kt :=
      .of_agree (hA.agree.mono fun q hq => mem_add.mpr (.inl hq))
    have hstacks : firstStacks m2 kt i = firstStacks m1 kt i := firstStacks_congr fun j _ => by
      rw [hsame.leaf]
    have hT2 : Vm.Tree m2 2 kt (pa ::ₘ (firstStacks m2 kt i + X)) := by
      refine ⟨hsame.shape hT1.shape, ?_, hA.pool.good⟩
      have hnd := hA.pool.nodup
      rw [hsame.tabs, hstacks]
      convert hnd using 1
      simp only [← singleton_add]
      abel
    refine ensures_mono (mapStack_after (by omega) hA.page hT2) fun _ m' h' => ?_
    obtain ⟨hT', hstacks', hpages'⟩ := h'
    refine ⟨hT', ?_⟩
    rw [← hpages1, hstacks', hpages', hsame.tabs, hstacks, hA.free]
    simp only [← singleton_add]
    abel
  · have hzero : firstStacks m kt 0 = 0 := rfl
    rw [hzero, zero_add, zero_add]
    exact ⟨hT, rfl⟩
  · intro _ m' h
    rwa [Nat.zero_add] at h

/-- The kernel owns what is not free, and together they are all the pages. -/
theorem kernelInit_booted (hfree : m.free = []) :
    After (kernelInit etext trampoline) (fun kt m' => Booted m.kend kt m') m := by
  rw [kernelInit]
  refine ensures_seq (kinit_after hfree) fun _ m1 h1 => ?_
  have hp1 : Pool m1 0 := by
    refine ⟨?_, fun pg hpg => (inRam_of_count h1 hpg).isPage⟩
    rw [add_zero]
    exact nodup_of_count h1
  refine ensures_seq (kvmmake_after hp1) fun kt m2 h2 => ?_
  refine ensures_seq (mapStacks_after h2.1) fun _ m' h' => ?_
  refine ⟨h'.1.shape, fun pg => ?_⟩
  have hpages : ↑m'.free + kernelPages m' kt = ↑m1.free := by
    rw [kernelPages, stackPages_eq, ← h2.2, ← h'.2]
    abel
  rw [hpages]
  exact h1 pg

/-! ## The first process -/

theorem uvmfirst_after {pt : UInt64} {F : Nat → Option UInt64} {src : Fin 512 → UInt64}
    (h : Img m pt F 0 X) (hF : Frames F) :
    After (uvmfirst pt src) (fun ok m' => ok → Img m' pt F 1 X ∧ Moved m m' pt 0 1 X) m := by
  rw [uvmfirst]
  refine ensures_seq h.kalloc_after fun r m1 hr => ?_
  rcases hr with ⟨rfl, rfl⟩ | ⟨mem, rfl, hT⟩
  · exact nofun
  dsimp only
  rw [ensures_bind, ensures_modify, mappages_page (by decide)]
  obtain ⟨himg, hsame, hagree⟩ := hT.img.overwrite src
  refine ensures_seq (himg.mapPage_after hT.page hF.frame rfl (by decide) (by decide)) ?_
  intro ok m2 hM
  obtain ⟨hagree2, hdone, hfail⟩ := hM
  cases ok with
  | true =>
    obtain ⟨himg2, hpages⟩ := hdone rfl
    refine fun _ => ⟨himg2, ?_, (hT.agree.trans hagree).trans hagree2⟩
    rw [hpages, hsame, hT.same, hT.free, add_cons]
  | false =>
    rw [if_neg (by decide)]
    refine ensures_seq (hfail rfl).1.kfree_after fun _ m3 _ => ?_
    exact nofun

theorem userinitMem_shift {initcode : Fin 512 → UInt64} (hp : Pool m X) :
    After (userinitMem trampoline usertrap initcode)
      (fun x m' => SpaceFits m' trampoline x ∧ Shift m m' X 0 (spacePages m' x)) m := by
  rw [userinitMem]
  refine ensures_seq (kalloc_shift hp) fun r m1 hr => ?_
  rcases hr with ⟨rfl, rfl⟩ | ⟨tf, rfl, hs1, -, hframe⟩
  · trivial
  have hp1 : Pool m1 ({tf} + X) := hs1.pool (by rwa [zero_add])
  refine ensures_seq (uvmcreate_shift hp1) fun r m2 hr => ?_
  rcases hr with ⟨rfl, rfl⟩ | ⟨pt, rfl, hT, hleaf, hs2⟩
  · trivial
  refine ensures_seq (mapFrames_after hT hleaf) fun _ m3 h3 => ?_
  have hs3 := hs2.trans (shift_of_moved h3.2 h3.1)
  refine ensures_seq (uvmfirst_after h3.1 (frames_fixed trampoline tf)) fun ok m4 h4 => ?_
  cases ok with
  | false => trivial
  | true =>
    have hone : 1 = npages 4096 := by decide
    obtain ⟨himg, hmoved⟩ := h4 rfl
    rw [hone] at himg hmoved
    have hs4 := hs1.trans (by simpa using (hs3.trans (shift_of_moved hmoved himg)).frame_left)
    have hp4 := hs4.pool (by rwa [zero_add])
    have hnot := notMem_of_pool hp4
    -- only the trap frame is written
    have hs5 : Shift m4 (firstFrame m4 tf usertrap) (img m4 pt (npages 4096) + X) 0 0 :=
      write_shift hp4 hnot 0 _
    obtain ⟨hfits, hsame⟩ := (fits_of_img himg).agree
      (hs5.agree.mono fun q hq => mem_add.mpr (.inl hq))
    rw [if_pos rfl, ensures_bind, ensures_modify]
    refine ⟨⟨hfits, hframe⟩, hs4.trans ?_⟩
    rw [spacePages, hsame]
    exact write_shift hp4 (fun hX => hnot (mem_add.mpr (.inr hX))) _ _

/-- When the scheduler starts, every page has its owner. -/
theorem own_start {initcode : Fin 512 → UInt64} {x : Space} (h : Booted kend kt m)
    (hdone : (userinitMem trampoline usertrap initcode).run m = .done x m') :
    Own kt (kernelPages m kt) (↑m.free + kernelPages m kt) (start trampoline x m') := by
  have hnd := nodup_of_count h.pages
  have hp : Pool m (kernelPages m kt) :=
    ⟨hnd, fun pg hpg => (inRam_of_count h.pages (mem_add.mpr (.inl hpg))).isPage⟩
  obtain ⟨hfits, hshift⟩ := of_run_eq_done (userinitMem_shift hp) hdone
  have hspace : ∀ q : Slot, q ≠ 0 → (start trampoline x m').space q = none := by
    intro q hq
    show update (fun _ => none) 0 (some x) q = none
    rw [update_of_ne hq]
  have hheld : total (held (start trampoline x m')) = spacePages m' x := by
    have hzero : ∀ q : Slot, q ≠ 0 → held (start trampoline x m') q = 0 := by
      intro q hq
      rw [held, hspace q hq]
      exact slotPages_none m'
    rw [total_eq_single hzero]
    exact slotPages_some m' x
  have hpipes : pipePages (start trampoline x m').file = 0 := by
    refine eq_zero_of_forall_notMem fun pg hpg => ?_
    obtain ⟨f, w, hf⟩ := mem_pipeSet.mp hpg
    cases hf
  refine ⟨?_, hnd, hshift.good, kernelPages_agree hshift.agree, ?_, ?_, tree_userinit, ?_, ?_⟩
  · rw [hheld, hpipes, add_zero]
    show ↑m'.free + kernelPages m kt + spacePages m' x = ↑m.free + kernelPages m kt
    have hpages := hshift.pages
    rw [zero_add] at hpages
    rw [← hpages]
    abel
  · intro q
    by_cases hq : q = 0
    · subst hq
      refine ⟨fun y hy => ?_, fun e he => by cases he⟩
      cases hy
      exact hfits
    · rw [hspace q hq]
      exact ⟨fun y hy => (by cases hy), fun e he => by cases he⟩
  · exact ⟨fun _ _ => rfl, fun f g k hf => (by cases hf), fun f pg w hf => (by cases hf), fun f pg w hf => by cases hf⟩
  · intro q
    show ((userinit procinit).proc q).state = .unused ↔ _
    rw [userinit_proc]
    by_cases hq : q = 0
    · subst hq
      rw [if_pos rfl]
      exact ⟨fun h => (by cases h), fun h => by cases h⟩
    · rw [if_neg hq, hspace q hq]
      exact ⟨fun _ => rfl, fun _ => rfl⟩
  · exact fun q hq => absurd rfl hq

end Xv6.Kernel
