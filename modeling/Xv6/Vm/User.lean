import Xv6.Vm.Leaves

/-!
# User address spaces

An address space is in use from page 0 up to its size; above it there are only the trampoline and the
trap frame. `Img` says so and that no page is used twice; every function that builds, copies or takes
down an address space keeps it, and what it maps or unmaps it takes from the free list or gives back.
-/

namespace Xv6.Vm

open Coop Prog Data Function Multiset

/-! ## The pages above the size -/

/-- The two mappings that `userinit`, `fork` and `exec` put into a new page table. -/
def mapFrames (trampoline pt tf : UInt64) : Prog Mem Unit := do
  uvmmap pt (UInt64.ofNat TRAMPOLINE) trampoline 4096 (PTE_R ||| PTE_X)
  uvmmap pt (UInt64.ofNat TRAPFRAME) tf 4096 (PTE_R ||| PTE_W ||| PTE_U)

/-- They are taken out again before a page table is freed. -/
def unmapFrames (pt : UInt64) : Prog Mem Unit := do
  uvmunmap pt (UInt64.ofNat TRAPFRAME) 1 false
  uvmunmap pt (UInt64.ofNat TRAMPOLINE) 1 false

/-- The number of the page at `TRAPFRAME`; the trampoline is the page after it, and the last one. -/
abbrev frameVpn : Nat := TRAPFRAME / PGSIZE

/-- The leaves above the size. -/
def fixedLeaves (trampoline tf : UInt64) (v : Nat) : Option UInt64 :=
  if v = frameVpn + 1 then some (PA2PTE trampoline ||| (PTE_R ||| PTE_X) ||| PTE_V)
  else if v = frameVpn then some (PA2PTE tf ||| (PTE_R ||| PTE_W ||| PTE_U) ||| PTE_V)
  else none

def npages (sz : UInt64) : Nat := (sz.toNat + 4095) / 4096

/-- The pages of an address space with `n` pages: its tables and what its leaves refer to. -/
def img (m : Mem) (pt : UInt64) (n : Nat) : Multiset UInt64 := tabs m 2 pt + span (leaf m pt) 0 n

/-- An address space of `n` pages with the leaves `F` above. -/
structure Img (m : Mem) (pt : UInt64) (F : Nat → Option UInt64) (n : Nat) (X : Multiset UInt64) :
    Prop where
  tree : Tree m 2 pt (span (leaf m pt) 0 n + X)
  bound : n ≤ frameVpn
  high : ∀ v, n ≤ v → leaf m pt v = F v

/-- The address space has given pages to the free list or taken pages from it. -/
structure Moved (m m' : Mem) (pt : UInt64) (n n' : Nat) (X : Multiset UInt64) : Prop where
  pages : img m' pt n' + ↑m'.free = img m pt n + ↑m.free
  agree : Agree m m' X

variable {m m' m'' : Mem} {pt pg a tf trampoline : UInt64} {F : Nat → Option UInt64} {n n' n'' k : Nat}
  {X Y : Multiset UInt64}

theorem Moved.trans (h : Moved m m' pt n n' X) (h' : Moved m' m'' pt n' n'' X) : Moved m m'' pt n n'' X :=
  ⟨h'.pages.trans h.pages, h.agree.trans h'.agree⟩

theorem Moved.refl (m : Mem) (pt : UInt64) (n : Nat) (X : Multiset UInt64) : Moved m m pt n n X :=
  ⟨rfl, .refl m X⟩

theorem Img.nodup (h : Img m pt F n X) : (img m pt n + ↑m.free + X).Nodup := by
  have hnd := h.tree.nodup
  convert hnd using 1
  rw [img]
  abel

/-! ## Single pages -/

theorem Img.frame (h : Img m pt F n X) (hagree : Agree m m' (tabs m 2 pt))
    (hnd : (img m pt n + ↑m'.free + Y).Nodup) (hgood : ∀ q ∈ m'.free, IsPage q) :
    Img m' pt F n Y ∧ img m' pt n = img m pt n := by
  have hsame := Same.of_agree hagree
  have himg : img m' pt n = img m pt n := by rw [img, img, hsame.tabs, hsame.leaf]
  refine ⟨⟨⟨hsame.shape h.tree.shape, ?_, hgood⟩, h.bound, ?_⟩, himg⟩
  · rw [← himg] at hnd
    convert hnd using 1
    rw [img]
    abel
  · rw [hsame.leaf]
    exact h.high

theorem Img.pool (h : Img m pt F n X) : Pool m (img m pt n + X) := by
  refine ⟨?_, h.tree.good⟩
  convert h.nodup using 1
  abel

/-- The pages other than those of the address space have changed. -/
theorem Img.of_pool (h : Img m pt F n X) (hpool : Pool m' (img m pt n + Y))
    (hagree : Agree m m' (img m pt n)) : Img m' pt F n Y ∧ img m' pt n = img m pt n := by
  refine h.frame (hagree.mono fun q hq => ?_) ?_ hpool.good
  · exact mem_add.mpr (.inl hq)
  · convert hpool.nodup using 1
    abel

/-- What `kalloc` returns is a page that was free, and now it is one of the others. -/
structure Took (m m' : Mem) (pt : UInt64) (F : Nat → Option UInt64) (n : Nat) (X : Multiset UInt64)
    (pg : UInt64) : Prop where
  page : IsPage pg
  img : Img m' pt F n (pg ::ₘ X)
  same : Vm.img m' pt n = Vm.img m pt n
  free : (m.free : Multiset UInt64) = pg ::ₘ ↑m'.free
  agree : Agree m m' X

theorem Img.kalloc_after (h : Img m pt F n X) :
    After kalloc (fun r m' => (r = none ∧ m' = m) ∨ ∃ pg, r = some pg ∧ Took m m' pt F n X pg) m := by
  refine ensures_mono h.pool.kalloc_after fun r m' hr => ?_
  rcases hr with hr | ⟨pg, hpg, hA⟩
  · exact .inl hr
  · have hpool := hA.pool
    rw [← add_cons] at hpool
    obtain ⟨himg, hsame⟩ := h.of_pool hpool (hA.agree.mono fun q hq => mem_add.mpr (.inl hq))
    exact .inr ⟨pg, hpg, hA.page, himg, hsame, hA.free,
      hA.agree.mono fun q hq => mem_add.mpr (.inr hq)⟩

theorem Img.kfree_after (h : Img m pt F n (pg ::ₘ X)) :
    After (kfree pg) (fun _ m' => Img m' pt F n X ∧ Vm.img m' pt n = Vm.img m pt n ∧
      (m'.free : Multiset UInt64) = pg ::ₘ ↑m.free ∧ Agree m m' X) m := by
  have hpool := h.pool
  rw [add_cons] at hpool
  refine ensures_mono hpool.kfree_after fun _ m' hR => ?_
  obtain ⟨hpool', hfree, hagree⟩ := hR
  obtain ⟨himg, hsame⟩ := h.of_pool hpool' (hagree.mono fun q hq => mem_add.mpr (.inl hq))
  exact ⟨himg, hsame, hfree, hagree.mono fun q hq => mem_add.mpr (.inr hq)⟩

theorem PTE2PA_leaf {perm : UInt64} (hpg : IsPage pg) (hperm : perm.toNat < 1024) :
    PTE2PA (PA2PTE pg ||| perm ||| PTE_V) = pg := by
  rw [UInt64.or_assoc]
  refine PTE2PA_PA2PTE hpg ?_
  rw [UInt64.toNat_or]
  exact Nat.or_lt_two_pow (n := 10) hperm (by decide)

theorem span_update_last {L : Nat → Option UInt64} (e : Option UInt64) :
    span (update L n e) 0 (n + 1) = span L 0 n + pageOf e := by
  rw [span_last (Nat.zero_le n), update_self]
  refine congrArg (· + _) (span_congr fun u _ hu => ?_)
  exact update_of_ne (by omega) _ _

/-- The page after the last one is mapped. That the trap frame is mapped keeps the address space
below it: mapping a page twice is a panic. -/
theorem Img.mapPage_after {perm : UInt64} (h : Img m pt F n (pg ::ₘ X)) (hpg : IsPage pg)
    (hF : F frameVpn ≠ none) (ha : vpn a = n) (hperm : perm.toNat < 1024)
    (hrwx : Has perm (PTE_R ||| PTE_W ||| PTE_X)) :
    After (mapPage pt perm a pg) (fun ok m' => Agree m m' X ∧
      (ok → Img m' pt F (n + 1) X ∧
        Vm.img m' pt (n + 1) + ↑m'.free = pg ::ₘ (Vm.img m pt n + ↑m.free)) ∧
      (ok = false → Img m' pt F n (pg ::ₘ X) ∧
        Vm.img m' pt n + ↑m'.free = Vm.img m pt n + ↑m.free)) m := by
  refine ensures_mono (Vm.mapPage_after h.tree hrwx) fun ok m' hM => ?_
  have hK := hM.kept
  refine ⟨hK.agree.mono fun q hq => by simp [hq], ?_, ?_⟩
  · intro hok
    have hnew := hM.new hok
    have hleaf := hM.done hok
    rw [ha] at hnew hleaf
    have hne : n ≠ frameVpn := by
      intro heq
      rw [h.high n (Nat.le_refl n), heq] at hnew
      exact hF hnew
    have hspan : span (leaf m' pt) 0 (n + 1) = span (leaf m pt) 0 n + {pg} := by
      rw [hleaf, span_update_last, pageOf, Option.elim_some, PTE2PA_leaf hpg hperm]
    have hT := hK.tree h.tree
    refine ⟨⟨⟨hT.shape, ?_, hT.good⟩, ?_, ?_⟩, ?_⟩
    · rw [hspan]
      convert hT.nodup using 1
      simp only [← singleton_add]
      abel
    · have := h.bound
      omega
    · intro v hv
      rw [hleaf, update_of_ne (by omega)]
      exact h.high v (by omega)
    · rw [Vm.img, hspan, Vm.img, ← singleton_add]
      calc tabs m' 2 pt + (span (leaf m pt) 0 n + {pg}) + ↑m'.free
          = {pg} + span (leaf m pt) 0 n + (tabs m' 2 pt + ↑m'.free) := by abel
        _ = {pg} + span (leaf m pt) 0 n + (tabs m 2 pt + ↑m.free) := by rw [hK.pages]
        _ = {pg} + (tabs m 2 pt + span (leaf m pt) 0 n + ↑m.free) := by abel
  · intro hfail
    have hleaf := hM.fail hfail
    have hT := hK.tree h.tree
    rw [← hleaf] at hT
    refine ⟨⟨hT, h.bound, ?_⟩, ?_⟩
    · rw [hleaf]
      exact h.high
    · rw [Vm.img, hleaf, Vm.img, add_right_comm, hK.pages, add_right_comm]

theorem Img.uvmunmap_after {b : Nat} {va npages : UInt64} (h : Img m pt F n X) (hb : vpn va = b)
    (hn : b + npages.toNat = n) (hnone : ∀ v, v < frameVpn → F v = none) :
    After (uvmunmap pt va npages true) (fun _ m' => Img m' pt F b X ∧ Moved m m' pt n b X) m := by
  have hsplit : span (leaf m pt) 0 n = span (leaf m pt) b n + span (leaf m pt) 0 b := by
    rw [add_comm]
    exact (Finset.sum_Ico_consecutive _ (Nat.zero_le b) (by omega)).symm
  have hT : Tree m 2 pt (span (leaf m pt) (vpn va) (vpn va + npages.toNat) + (span (leaf m pt) 0 b + X)) := by
    rw [hb, hn, ← add_assoc, ← hsplit]
    exact h.tree
  refine ensures_mono (Vm.uvmunmap_after hT) fun _ m' hU => ?_
  rw [hb, hn] at hU
  obtain ⟨hU, hleaf⟩ := hU
  have hlow : span (leaf m' pt) 0 b = span (leaf m pt) 0 b := by
    refine span_congr fun u _ hu => ?_
    rw [hleaf, clear, if_neg (by omega)]
  refine ⟨⟨?_, ?_, ?_⟩, ?_, hU.agree.mono fun q hq => by simp [hq]⟩
  · rw [hlow]
    exact hU.tree
  · have := h.bound
    omega
  · intro v hv
    rw [hleaf, clear]
    by_cases hvn : v < n
    · have := h.bound
      rw [if_pos ⟨hv, hvn⟩, hnone v (by omega)]
    · rw [if_neg fun hbad => hvn hbad.2]
      exact h.high v (by omega)
  · rw [Vm.img, Vm.img, hlow, hU.tabs, hU.free, hsplit]
    abel

/-- A single page of the address space is unmapped and freed. -/
theorem Img.punch_after {va : UInt64} (h : Img m pt F n X) (hva : va.toNat < MAXVA → vpn va < n) :
    After (uvmunmap pt va 1 true) (fun _ m' => Img m' pt F n X ∧ Moved m m' pt n n X) m := by
  by_cases hlt : va.toNat < MAXVA
  · have hv := hva hlt
    have hone : (1 : UInt64).toNat = 1 := rfl
    have hsplit : ∀ L, span L 0 n = span L (vpn va) (vpn va + 1) + (span L 0 (vpn va) + span L (vpn va + 1) n) := by
      intro L
      rw [add_left_comm, span, span, span, span, Finset.sum_Ico_consecutive _ (by omega) hv,
        Finset.sum_Ico_consecutive _ (by omega) hv.le]
    have hT : Tree m 2 pt (span (leaf m pt) (vpn va) (vpn va + (1 : UInt64).toNat) +
        (span (leaf m pt) 0 (vpn va) + span (leaf m pt) (vpn va + 1) n + X)) := by
      rw [hone, ← add_assoc, ← hsplit]
      exact h.tree
    refine ensures_mono (Vm.uvmunmap_after hT) fun _ m' hU => ?_
    rw [hone] at hU
    obtain ⟨hU, hleaf⟩ := hU
    have hspan : span (leaf m' pt) 0 n = span (leaf m pt) 0 (vpn va) + span (leaf m pt) (vpn va + 1) n := by
      have hgone : leaf m' pt (vpn va) = none := by
        rw [hleaf, clear, if_pos (by omega)]
      rw [hsplit, span_one, hgone]
      refine (zero_add _).trans (congrArg₂ (· + ·) (span_congr fun u _ hu => ?_)
        (span_congr fun u hu _ => ?_))
      · rw [hleaf, clear, if_neg (by omega)]
      · rw [hleaf, clear, if_neg (by omega)]
    refine ⟨⟨?_, h.bound, ?_⟩, ?_, hU.agree.mono fun q hq => mem_add.mpr (.inr hq)⟩
    · rw [hspan]
      exact hU.tree
    · intro v hv'
      rw [hleaf, clear, if_neg (by omega)]
      exact h.high v hv'
    · rw [Vm.img, Vm.img, hspan, hU.tabs, hU.free, hsplit (leaf m pt)]
      abel
  · rw [uvmunmap, if_pos (.inr (.inl (Nat.le_of_not_lt hlt)))]
    trivial

/-! ## Growing -/

/-- The leaves that every page table of a process has above its size. -/
structure Frames (F : Nat → Option UInt64) : Prop where
  frame : F frameVpn ≠ none
  none : ∀ v, v < frameVpn → F v = none

theorem vpn_succ (ha : a.toNat % 4096 = 0) (hlt : vpn a < frameVpn) :
    vpn (a + 4096) = vpn a + 1 ∧ (a + 4096).toNat % 4096 = 0 := by
  have hsize : (4096 : UInt64).toNat = 4096 := rfl
  have hbound : a.toNat / 4096 < 2 ^ 27 - 2 := hlt
  have hadd : (a + 4096).toNat = a.toNat + 4096 := by
    rw [UInt64.toNat_add, hsize]
    exact Nat.mod_eq_of_lt (by omega)
  unfold vpn
  omega

/-- The rollback: what was mapped from `start` on is given back. -/
theorem Img.rollback_after {start : UInt64} (h : Img m pt F (vpn a) X) (hF : Frames F)
    (hstart : start.toNat % 4096 = 0) (ha : a.toNat % 4096 = 0) (hle : start.toNat ≤ a.toNat) :
    After (uvmunmap pt start ((a - start) / 4096) true)
      (fun _ m' => Img m' pt F (vpn start) X ∧ Moved m m' pt (vpn a) (vpn start) X) m := by
  refine h.uvmunmap_after rfl ?_ hF.none
  have hsize : (4096 : UInt64).toNat = 4096 := rfl
  rw [UInt64.toNat_div, UInt64.toNat_sub_of_le _ _ (UInt64.le_iff_toNat_le.mpr hle), hsize, vpn, vpn]
  omega

/-- A page that could be allocated but not mapped is freed before the rollback. -/
theorem Img.giveUp_after {start : UInt64} (h : Img m pt F (vpn a) (pg ::ₘ X)) (hF : Frames F)
    (hstart : start.toNat % 4096 = 0) (ha : a.toNat % 4096 = 0) (hle : start.toNat ≤ a.toNat) :
    After (kfree pg >>= fun _ => uvmunmap pt start ((a - start) / 4096) true)
      (fun _ m' => Img m' pt F (vpn start) X ∧ Agree m m' X ∧
        Vm.img m' pt (vpn start) + ↑m'.free = pg ::ₘ (Vm.img m pt (vpn a) + ↑m.free)) m := by
  refine ensures_seq h.kfree_after fun _ m1 h1 => ?_
  obtain ⟨himg, hsame, hfree, hagree⟩ := h1
  refine ensures_mono (himg.rollback_after hF hstart ha hle) fun _ m' h' => ?_
  refine ⟨h'.1, hagree.trans h'.2.agree, ?_⟩
  rw [h'.2.pages, hsame, hfree, add_cons]

theorem allocLoop_after {start newsz xperm : UInt64} (hF : Frames F) (hx : xperm.toNat < 1024)
    (hstart : start.toNat % 4096 = 0) (h : Img m pt F (vpn a) X) (ha : a.toNat % 4096 = 0)
    (hle : start.toNat ≤ a.toNat) :
    After (allocLoop pt start newsz xperm k a) (fun r m' =>
      (r = newsz ∧ Img m' pt F (vpn a + k) X ∧ Moved m m' pt (vpn a) (vpn a + k) X) ∨
      (r = 0 ∧ Img m' pt F (vpn start) X ∧ Moved m m' pt (vpn a) (vpn start) X)) m := by
  induction k generalizing m a with
  | zero => exact .inl ⟨rfl, h, .refl m pt _ X⟩
  | succ k ih =>
    rw [allocLoop]
    refine ensures_seq h.kalloc_after fun r m1 hr => ?_
    rcases hr with ⟨rfl, rfl⟩ | ⟨mem, rfl, hT⟩
    · refine ensures_seq (h.rollback_after hF hstart ha hle) fun _ m' h' => ?_
      exact .inr ⟨rfl, h'⟩
    · have hperm : (PTE_R ||| PTE_U ||| xperm).toNat < 1024 := by
        rw [UInt64.toNat_or]
        exact Nat.or_lt_two_pow (n := 10) (by decide) hx
      have hrwx : Has (PTE_R ||| PTE_U ||| xperm) (PTE_R ||| PTE_W ||| PTE_X) :=
        or_has.mpr (.inl (by decide))
      dsimp only
      rw [mappages_page ha]
      refine ensures_seq (hT.img.mapPage_after hT.page hF.frame rfl hperm hrwx) fun ok m2 hM => ?_
      obtain ⟨hagree, hdone, hfail⟩ := hM
      have htook : mem ::ₘ (Vm.img m1 pt (vpn a) + ↑m1.free) = Vm.img m pt (vpn a) + ↑m.free := by
        rw [hT.same, hT.free, add_cons]
      cases ok with
      | true =>
        obtain ⟨himg, hpages⟩ := hdone rfl
        have hlt : vpn a < frameVpn := himg.bound
        obtain ⟨hnext, haligned⟩ := vpn_succ ha hlt
        have hmoved : Moved m m2 pt (vpn a) (vpn (a + 4096)) X := by
          refine ⟨?_, hT.agree.trans hagree⟩
          rw [hnext, hpages, htook]
        rw [← hnext] at himg
        have hle' : start.toNat ≤ (a + 4096).toNat := by
          unfold vpn at hnext
          omega
        refine ensures_mono (ih himg haligned hle') fun r m' h' => ?_
        rcases h' with ⟨hr, himg', hmv⟩ | ⟨hr, himg', hmv⟩
        · rw [hnext, Nat.add_right_comm, Nat.add_assoc] at himg' hmv
          rw [hnext] at hmoved
          exact .inl ⟨hr, himg', hmoved.trans hmv⟩
        · exact .inr ⟨hr, himg', hmoved.trans hmv⟩
      | false =>
        obtain ⟨himg, hpages⟩ := hfail rfl
        have hgive := himg.giveUp_after hF hstart ha hle
        rw [After, ensures_bind] at hgive
        refine (ensures_bind _ _ _ _).mpr (ensures_mono hgive fun _ m3 h3 => ?_)
        refine ensures_seq h3 fun _ m' h' => ?_
        refine .inr ⟨rfl, h'.1, ?_, (hT.agree.trans hagree).trans h'.2.1⟩
        rw [h'.2.2, hpages, htook]

theorem toNat_PGROUNDUP_npages {sz : UInt64} (h : npages sz ≤ frameVpn) :
    (PGROUNDUP sz).toNat = npages sz * 4096 := by
  have hbound : (sz.toNat + 4095) / 4096 ≤ 2 ^ 27 - 2 := h
  exact toNat_PGROUNDUP (by omega)

/-- `uvmalloc` returns the new size, or 0 with the address space as it was. -/
theorem uvmalloc_after {oldsz newsz xperm : UInt64} (hF : Frames F) (hx : xperm.toNat < 1024)
    (h : Img m pt F (npages oldsz) X) :
    After (uvmalloc pt oldsz newsz xperm) (fun r m' =>
      ∃ n, Img m' pt F n X ∧ Moved m m' pt (npages oldsz) n X ∧ (n = npages r ∨ r = 0)) m := by
  rw [uvmalloc]
  by_cases hsmall : newsz < oldsz ∨ MAXVA ≤ newsz.toNat
  · rw [if_pos hsmall]
    exact ⟨npages oldsz, h, .refl m pt _ X, .inl rfl⟩
  · rw [if_neg hsmall]
    obtain ⟨hge, hmax⟩ := not_or.mp hsmall
    have hle : oldsz.toNat ≤ newsz.toNat := UInt64.le_iff_toNat_le.mp (UInt64.not_lt.mp hge)
    have hup := toNat_PGROUNDUP_npages h.bound
    have hvpn : vpn (PGROUNDUP oldsz) = npages oldsz := by
      rw [vpn, hup]
      omega
    have hlast : npages oldsz + pagesTo (PGROUNDUP oldsz) newsz = npages newsz := by
      unfold pagesTo
      rw [hup]
      unfold npages PGSIZE
      omega
    have haligned : (PGROUNDUP oldsz).toNat % 4096 = 0 := by
      rw [hup]
      omega
    have hstart : Img m pt F (vpn (PGROUNDUP oldsz)) X := by
      rw [hvpn]
      exact h
    refine ensures_mono (allocLoop_after hF hx haligned hstart haligned (Nat.le_refl _)) ?_
    intro r m' hr
    rw [hvpn, hlast] at hr
    rcases hr with ⟨rfl, himg, hmoved⟩ | ⟨rfl, himg, hmoved⟩
    · exact ⟨_, himg, hmoved, .inl rfl⟩
    · exact ⟨_, himg, hmoved, .inr rfl⟩

/-! ## Copying -/

theorem Img.skip (h : Img m pt F n X) (hF : Frames F) (hlt : n < frameVpn) :
    Img m pt F (n + 1) X ∧ Moved m m pt n (n + 1) X := by
  have hspan : span (leaf m pt) 0 (n + 1) = span (leaf m pt) 0 n := by
    rw [span_last (Nat.zero_le n), h.high n (Nat.le_refl n), hF.none n hlt]
    exact add_zero _
  refine ⟨⟨?_, hlt, fun v hv => h.high v (by omega)⟩, ?_, .refl m X⟩
  · rw [hspan]
    exact h.tree
  · rw [img, img, hspan]

theorem Img.overwrite (h : Img m pt F n (pg ::ₘ X)) (w : Fin 512 → UInt64) :
    Img { m with page := update m.page pg w } pt F n (pg ::ₘ X) ∧
      img { m with page := update m.page pg w } pt n = img m pt n ∧
      Agree m { m with page := update m.page pg w } X := by
  have hnd := h.nodup
  rw [add_cons] at hnd
  have hnot := (nodup_cons.mp hnd).1
  simp only [mem_add, not_or] at hnot
  have hpool : Pool { m with page := update m.page pg w } (img m pt n + pg ::ₘ X) :=
    ⟨h.pool.nodup, h.pool.good⟩
  obtain ⟨himg, hsame⟩ := h.of_pool hpool (.write hnot.1.1 w)
  exact ⟨himg, hsame, .write hnot.2 w⟩

theorem Img.copyPage (h : Img m pt F n (pg ::ₘ X)) (src : UInt64) :
    Img (m.copyPage pg src) pt F n (pg ::ₘ X) ∧ img (m.copyPage pg src) pt n = img m pt n ∧
      Agree m (m.copyPage pg src) X :=
  h.overwrite (m.page src)

theorem copyLoop_after {old i : UInt64} (hF : Frames F) (h : Img m pt F (vpn i) X)
    (hi : i.toNat % 4096 = 0) (hroom : vpn i + k ≤ frameVpn) :
    After (copyLoop old pt k i) (fun r m' =>
      (r ∧ Img m' pt F (vpn i + k) X ∧ Moved m m' pt (vpn i) (vpn i + k) X) ∨
      (r = false ∧ Img m' pt F 0 X ∧ Moved m m' pt (vpn i) 0 X)) m := by
  induction k generalizing m i with
  | zero => exact .inl ⟨rfl, h, .refl m pt _ X⟩
  | succ k ih =>
    have hlt : vpn i < frameVpn := by omega
    obtain ⟨hnext, haligned⟩ := vpn_succ hi hlt
    -- the page at `i` is done in `m1`; the rest of the loop follows
    have hgo : ∀ m1, Img m1 pt F (vpn i + 1) X → Moved m m1 pt (vpn i) (vpn i + 1) X →
        After (copyLoop old pt k (i + 4096)) (fun r m' =>
          (r = true ∧ Img m' pt F (vpn i + (k + 1)) X ∧ Moved m m' pt (vpn i) (vpn i + (k + 1)) X) ∨
          (r = false ∧ Img m' pt F 0 X ∧ Moved m m' pt (vpn i) 0 X)) m1 := by
      intro m1 himg hmoved
      rw [← hnext] at himg hmoved
      refine ensures_mono (ih himg haligned (by omega)) fun r m' h' => ?_
      rcases h' with ⟨hr, himg', hmv⟩ | ⟨hr, himg', hmv⟩
      · have hidx : vpn (i + 4096) + k = vpn i + (k + 1) := by omega
        rw [hidx] at himg' hmv
        exact .inl ⟨hr, himg', hmoved.trans hmv⟩
      · exact .inr ⟨hr, himg', hmoved.trans hmv⟩
    have hskip := h.skip hF hlt
    have hrollback : ∀ m1, Img m1 pt F (vpn i) X → After (uvmunmap pt 0 (i / 4096) true)
        (fun _ m' => Img m' pt F 0 X ∧ Moved m1 m' pt (vpn i) 0 X) m1 := by
      intro m1 himg
      refine himg.uvmunmap_after rfl ?_ hF.none
      have hsize : (4096 : UInt64).toNat = 4096 := rfl
      rw [UInt64.toNat_div, hsize, Nat.zero_add, vpn]
    rw [copyLoop, walk]
    by_cases hmax : MAXVA ≤ i.toNat
    · rw [if_pos hmax]
      trivial
    rw [if_neg hmax]
    refine ensures_seq (walkFrom_find i 2 old m) fun r m1 hfound => ?_
    rw [hfound.1]
    cases r with
    | none => exact hgo m hskip.1 hskip.2
    | some p =>
      obtain ⟨t, j⟩ := p
      rw [ensures_bind, ensures_gets]
      by_cases hv : Has (m.page t j) PTE_V
      · rw [if_neg (not_not.mpr hv)]
        by_cases hrwx : Has (m.page t j) (PTE_R ||| PTE_W ||| PTE_X)
        · rw [if_neg (not_not.mpr hrwx)]
          refine ensures_seq h.kalloc_after fun r m1 hr => ?_
          rcases hr with ⟨rfl, rfl⟩ | ⟨mem, rfl, hT⟩
          · exact ensures_seq (hrollback _ h) fun _ m' h' => .inr ⟨rfl, h'⟩
          · dsimp only
            rw [ensures_bind, ensures_modify, mappages_page hi]
            obtain ⟨hcopied, hsame, hcopy⟩ := hT.img.copyPage (PTE2PA (m.page t j))
            have hperm : (PTE_FLAGS (m.page t j)).toNat < 1024 := by
              rw [toNat_PTE_FLAGS]
              omega
            have hflags : Has (PTE_FLAGS (m.page t j)) (PTE_R ||| PTE_W ||| PTE_X) := by
              rw [Has, ← and_flag (by decide)]
              exact hrwx
            have htook : mem ::ₘ (img (m1.copyPage mem (PTE2PA (m.page t j))) pt (vpn i) + ↑m1.free) =
                img m pt (vpn i) + ↑m.free := by
              rw [hsame, hT.same, hT.free, add_cons]
            refine ensures_seq (hcopied.mapPage_after hT.page hF.frame rfl hperm hflags) ?_
            intro ok m2 hM
            obtain ⟨hagree, hdone, hfail⟩ := hM
            have hX : Agree m m2 X := (hT.agree.trans hcopy).trans hagree
            cases ok with
            | true =>
              obtain ⟨himg, hpages⟩ := hdone rfl
              exact hgo m2 himg ⟨hpages.trans htook, hX⟩
            | false =>
              obtain ⟨himg, hpages⟩ := hfail rfl
              refine ensures_seq himg.kfree_after fun _ m3 h3 => ?_
              obtain ⟨himg3, hsame3, hfree3, hagree3⟩ := h3
              refine ensures_seq (hrollback m3 himg3) fun _ m' h' => ?_
              refine .inr ⟨rfl, h'.1, ?_, (hX.trans hagree3).trans h'.2.agree⟩
              rw [h'.2.pages, hsame3, hfree3, add_cons, hpages]
              exact htook
        · rw [if_pos hrwx]
          trivial
      · rw [if_pos hv]
        exact hgo m hskip.1 hskip.2

/-- `uvmcopy` copies as many pages as the size says, or leaves the new address space empty. -/
theorem uvmcopy_after {old sz : UInt64} (hF : Frames F) (h : Img m pt F 0 X) (hsz : npages sz ≤ frameVpn) :
    After (uvmcopy old pt sz) (fun r m' =>
      (r ∧ Img m' pt F (npages sz) X ∧ Moved m m' pt 0 (npages sz) X) ∨
      (r = false ∧ Img m' pt F 0 X ∧ Moved m m' pt 0 0 X)) m := by
  have hpages : vpn 0 + pagesTo 0 sz = npages sz := by
    show 0 / 4096 + (sz.toNat - 0 + 4095) / 4096 = (sz.toNat + 4095) / 4096
    omega
  have hcopy := @copyLoop_after m pt F (pagesTo 0 sz) X old 0 hF h (by decide) (hpages ▸ hsz)
  rw [hpages] at hcopy
  exact hcopy

/-! ## Taking down -/

/-- `uvmfree` gives back every page of an address space. If it is called with size 0 on an address
space that is not empty, it does not return. -/
theorem uvmfree_after {sz : UInt64} (h : Img m pt (fun _ => none) n X) (hsz : n = npages sz ∨ sz = 0) :
    After (uvmfree pt sz) (fun _ m' => (m'.free : Multiset UInt64) = img m pt n + ↑m.free ∧
      Agree m m' X ∧ ∀ q ∈ m'.free, IsPage q) m := by
  rw [uvmfree]
  by_cases hpos : 0 < sz
  · have hn : n = npages sz := by
      rcases hsz with hn | rfl
      · exact hn
      · exact absurd hpos (by decide)
    subst hn
    rw [if_pos hpos]
    have hsize : (4096 : UInt64).toNat = 4096 := rfl
    have hcount : 0 + (PGROUNDUP sz / 4096).toNat = npages sz := by
      rw [UInt64.toNat_div, toNat_PGROUNDUP_npages h.bound, hsize]
      omega
    refine ensures_seq (h.uvmunmap_after (b := 0) rfl hcount fun _ _ => rfl) fun _ m1 h1 => ?_
    obtain ⟨himg, hmoved⟩ := h1
    have hT := himg.tree
    rw [span_self, zero_add] at hT
    refine ensures_mono (freewalk_after hT) fun _ m' hFr => ?_
    refine ⟨?_, hmoved.agree.trans hFr.agree, hFr.good⟩
    rw [hFr.free, ← hmoved.pages, img, span_self, add_zero]
  · rw [if_neg hpos]
    refine ensures_mono (freewalk_after h.tree) fun _ m' hFr => ?_
    have hspan : span (leaf m pt) 0 n = 0 := by
      refine Finset.sum_eq_zero fun v _ => ?_
      have hnone : leaf m pt v = none := by
        rw [leaf, hFr.empty, ite_self]
      rw [hnone]
      rfl
    refine ⟨?_, hFr.agree.mono fun q hq => mem_add.mpr (.inr hq), hFr.good⟩
    rw [hFr.free, img, hspan, add_zero]

/-! ## The trampoline and the trap frame -/

theorem frames_fixed (trampoline tf : UInt64) : Frames (fixedLeaves trampoline tf) := by
  constructor
  · simp [fixedLeaves]
  · intro v hv
    rw [fixedLeaves, if_neg (by omega), if_neg (by omega)]

theorem vpn_trapframe : vpn (UInt64.ofNat TRAPFRAME) = frameVpn := by decide

theorem vpn_trampoline : vpn (UInt64.ofNat TRAMPOLINE) = frameVpn + 1 := by decide

theorem uvmmap_after {perm pa : UInt64} (hT : Tree m 2 pt X) (ha : a.toNat % 4096 = 0)
    (hrwx : Has perm (PTE_R ||| PTE_W ||| PTE_X)) :
    After (uvmmap pt a pa 4096 perm) (fun _ m' => Kept m m' 2 pt X ∧
      leaf m' pt = update (leaf m pt) (vpn a) (some (PA2PTE pa ||| perm ||| PTE_V))) m := by
  rw [uvmmap, mappages_page ha]
  refine ensures_seq (mapPage_after hT hrwx) fun ok m' hM => ?_
  cases ok with
  | true => exact ⟨hM.kept, hM.done rfl⟩
  | false => trivial

theorem mapFrames_after (hT : Tree m 2 pt X) (hempty : leaf m pt = fun _ => none) :
    After (mapFrames trampoline pt tf) (fun _ m' =>
      Img m' pt (fixedLeaves trampoline tf) 0 X ∧ Moved m m' pt 0 0 X) m := by
  rw [mapFrames]
  refine ensures_seq (uvmmap_after hT (by decide) (by decide)) fun _ m1 h1 => ?_
  refine ensures_mono (uvmmap_after (h1.1.tree hT) (by decide) (by decide)) fun _ m' h' => ?_
  have hK := h1.1.trans h'.1
  have hleaf : leaf m' pt = fixedLeaves trampoline tf := by
    rw [h'.2, h1.2, hempty, vpn_trapframe, vpn_trampoline]
    funext v
    unfold fixedLeaves
    by_cases hframe : v = frameVpn
    · rw [hframe, update_self, if_neg (by omega), if_pos rfl]
    · rw [update_of_ne hframe, if_neg hframe]
      by_cases htramp : v = frameVpn + 1
      · rw [htramp, update_self, if_pos rfl]
      · rw [update_of_ne htramp, if_neg htramp]
  have hT' := hK.tree hT
  refine ⟨⟨?_, by omega, fun v _ => by rw [hleaf]⟩, ?_, hK.agree⟩
  · rw [span_self, zero_add]
    exact hT'
  · rw [img, img, span_self, span_self, add_zero, add_zero]
    exact hK.pages

/-- `uvmunmap` of one page that is not freed. -/
theorem uvmunmap_page_after {va : UInt64} (hT : Tree m 2 pt X) (hva : va.toNat % PGSIZE = 0)
    (hlt : va.toNat < MAXVA) :
    After (uvmunmap pt va 1 false) (fun _ m' => Unmapped m m' pt X 0 ∧
      leaf m' pt = update (leaf m pt) (vpn va) none) m := by
  have hone : (1 : UInt64).toNat = 1 := rfl
  have hfirst : va + 4096 * UInt64.ofNat 0 = va := by simp
  have hok : ¬ (va.toNat % PGSIZE ≠ 0 ∨ MAXVA ≤ va.toNat ∨ (MAXVA - va.toNat) / PGSIZE < (1 : UInt64).toNat) := by
    rw [hone]
    lia
  have hT' : Tree m 2 pt ((if false then pageOf (leaf m pt (vpn va)) else 0) + X) := by
    rw [if_neg (by decide), zero_add]
    exact hT
  rw [uvmunmap, if_neg hok, hone, loop, hfirst]
  exact ensures_seq (unmapPage_after hT') fun _ m' h => h

/-- The two mappings are removed; their pages are not freed. -/
theorem Img.unmapFrames_after (h : Img m pt (fixedLeaves trampoline tf) n X) :
    After (unmapFrames pt) (fun _ m' => Img m' pt (fun _ => none) n X ∧ Moved m m' pt n n X) m := by
  rw [unmapFrames]
  refine ensures_seq (uvmunmap_page_after h.tree (by decide) (by decide)) fun _ m1 h1 => ?_
  refine ensures_mono (uvmunmap_page_after h1.1.tree (by decide) (by decide)) fun _ m' h' => ?_
  obtain ⟨hU1, hleaf1⟩ := h1
  obtain ⟨hU, hleaf⟩ := h'
  rw [hleaf1, vpn_trapframe, vpn_trampoline] at hleaf
  have hbound := h.bound
  have hlow : ∀ v, v < n → leaf m' pt v = leaf m pt v := by
    intro v hv
    rw [hleaf, update_of_ne (by omega), update_of_ne (by omega)]
  have hspan : span (leaf m' pt) 0 n = span (leaf m pt) 0 n := span_congr fun v _ hv => hlow v hv
  have hagree : Agree m m' X := (hU1.agree.trans hU.agree).mono fun q hq => mem_add.mpr (.inr hq)
  refine ⟨⟨?_, hbound, ?_⟩, ?_, hagree⟩
  · rw [hspan]
    exact hU.tree
  · intro v hv
    rw [hleaf]
    by_cases htramp : v = frameVpn + 1
    · rw [htramp, update_self]
    by_cases hframe : v = frameVpn
    · rw [update_of_ne htramp, hframe, update_self]
    · rw [update_of_ne htramp, update_of_ne hframe, h.high v hv, fixedLeaves, if_neg htramp, if_neg hframe]
  · rw [img, img, hspan, hU.tabs, hU1.tabs, hU.free, hU1.free, zero_add, zero_add]

/-! ## New page tables -/

/-- A page that has been allocated and cleared is an empty page table. -/
theorem Allocated.table (h : Allocated m m' X pt) :
    Tree (m'.fill pt 0) 2 pt X ∧ leaf (m'.fill pt 0) pt = (fun _ => none) ∧
      (m.free : Multiset UInt64) = tabs (m'.fill pt 0) 2 pt + ↑m'.free ∧ Agree m (m'.fill pt 0) X := by
  have hzero : ∀ i, (m'.fill pt 0).page pt i = 0 := by
    intro i
    simp [Mem.fill]
  obtain ⟨htabs, hshape, hlook⟩ := empty_tabs hzero 2
  have hleaf : leaf (m'.fill pt 0) pt = fun _ => none := by
    funext v
    rw [leaf, hlook, ite_self]
  have hnd := h.pool.nodup
  rw [add_cons] at hnd
  have hnot := (nodup_cons.mp hnd).1
  rw [mem_add, not_or] at hnot
  refine ⟨⟨hshape, ?_, h.pool.good⟩, hleaf, ?_, h.agree.trans (.fill hnot.2)⟩
  · rw [htabs, add_assoc, singleton_add]
    exact hnd
  · rw [htabs, singleton_add]
    exact h.free

theorem Pool.uvmcreate_after (h : Pool m X) :
    After uvmcreate (fun r m' => (r = none ∧ m' = m) ∨ ∃ pt, r = some pt ∧ Tree m' 2 pt X ∧
      leaf m' pt = (fun _ => none) ∧ (m.free : Multiset UInt64) = img m' pt 0 + ↑m'.free ∧
      Agree m m' X) m := by
  rw [uvmcreate]
  refine ensures_seq h.kalloc_after fun r m1 hr => ?_
  rcases hr with ⟨rfl, rfl⟩ | ⟨pt, rfl, hA⟩
  · exact .inl ⟨rfl, rfl⟩
  · obtain ⟨hT, hleaf, hfree, hagree⟩ := hA.table
    refine .inr ⟨pt, rfl, hT, hleaf, ?_, hagree⟩
    rw [img, span_self, add_zero]
    exact hfree

end Xv6.Vm
