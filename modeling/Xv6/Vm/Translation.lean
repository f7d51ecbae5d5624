import Xv6.Vm.Safe

/-!
# Page tables as partial maps

What a page table is for: a partial map from page numbers to physical pages with permissions. The tables that
a client builds from `uvmcreate` with `mappages` and `uvmunmap` define such a map, and the functions of
`kernel/vm.c` are the operations of the map. The client may map any page at any number of addresses, but it lets
`uvmunmap` free only pages that it has got from `kalloc`, and each of them once.
-/

namespace Xv6.Vm

open Coop Prog Data Function Multiset

/-- The physical page and the permissions for a page number. -/
def translation (m : Mem) (pt : UInt64) (v : Nat) : Option (UInt64 × UInt64) :=
  (leaf m pt v).map fun e => (PTE2PA e, PTE_FLAGS e)

/-- The bytes that a call of `mappages` is for lie in one page. -/
def OnePage (va size : UInt64) : Prop := size ≠ 0 ∧ PGROUNDDOWN (va + size - 1) = PGROUNDDOWN va

/-- The arguments with which `uvmunmap` does not panic at once. -/
def Unmappable (va npages : UInt64) : Prop :=
  va.toNat % PGSIZE = 0 ∧ va.toNat < MAXVA ∧ npages.toNat ≤ (MAXVA - va.toNat) / PGSIZE

/-- The pages that `uvmunmap` frees. -/
def freedPages (m : Mem) (pt va npages : UInt64) (doFree : Bool) : Multiset UInt64 :=
  if doFree then span (leaf m pt) (vpn va) (vpn va + npages.toNat) else 0

/-- The memory with its allocator at work: the free pages are distinct pages behind the kernel. -/
structure Ready (m : Mem) : Prop where
  nodup : m.free.Nodup
  ram : ∀ pg ∈ m.free, Ram m.kend pg

/-- The page table `pt` as a client builds it. The pages that the client has got from `kalloc` and not given back
are `X`; it can write to them. -/
inductive Client (m₀ : Mem) (pt : UInt64) : Mem → Multiset UInt64 → Prop
  | create {m : Mem} : uvmcreate.run m₀ = .done (some pt) m → Client m₀ pt m 0
  | take {m m' : Mem} {X : Multiset UInt64} {pg : UInt64} : Client m₀ pt m X →
      kalloc.run m = .done (some pg) m' → Client m₀ pt m' (pg ::ₘ X)
  | give {m m' : Mem} {X : Multiset UInt64} {pg : UInt64} : Client m₀ pt m (pg ::ₘ X) →
      (kfree pg).run m = .done () m' → Client m₀ pt m' X
  | store {m : Mem} {X : Multiset UInt64} {pg : UInt64} (f : Fin 512 → UInt64) : Client m₀ pt m X → pg ∈ X →
      Client m₀ pt { m with page := update m.page pg f } X
  | map {m m' : Mem} {X : Multiset UInt64} {va size pa perm : UInt64} {ok : Bool} : Client m₀ pt m X →
      OnePage va size → Has perm (PTE_R ||| PTE_W ||| PTE_X) → translation m pt (vpn va) = none →
      (mappages pt va size pa perm).run m = .done ok m' → Client m₀ pt m' X
  | unmap {m m' : Mem} {X : Multiset UInt64} {va npages : UInt64} {doFree : Bool} :
      Client m₀ pt m (freedPages m pt va npages doFree + X) →
      (uvmunmap pt va npages doFree).run m = .done () m' → Client m₀ pt m' X

variable {m₀ m m' : Mem} {pt pg va size pa perm a npages : UInt64} {v b c : Nat} {X Y : Multiset UInt64}
  {doFree : Bool}

/-! ## One page -/

theorem vpn_PGROUNDDOWN (va : UInt64) : vpn (PGROUNDDOWN va) = vpn va := by
  unfold vpn
  rw [toNat_PGROUNDDOWN]
  omega

/-- A call of `mappages` for one page makes one round. -/
theorem mappages_onePage (h : OnePage va size) :
    mappages pt va size pa perm = mapPage pt perm (PGROUNDDOWN va) pa := by
  rw [mappages, if_neg h.1]
  simp only [h.2, UInt64.sub_self]
  rfl

theorem or_PTE_V_lt {f : UInt64} (hf : f.toNat < 1024) : (f ||| PTE_V).toNat < 1024 := by
  rw [UInt64.toNat_or]
  exact Nat.or_lt_two_pow (n := 10) hf (by decide)

theorem or_assoc_entry (pa perm : UInt64) : PA2PTE pa ||| perm ||| PTE_V = PA2PTE pa ||| (perm ||| PTE_V) :=
  UInt64.or_assoc ..

/-! ## Unmapping without freeing -/

theorem uvmunmap_keep_after (hT : Tree m 2 pt X) :
    After (uvmunmap pt va npages false)
      (fun _ m' => Unmapped m m' pt X 0 ∧ leaf m' pt = clear (leaf m pt) (vpn va) (vpn va + npages.toNat)) m := by
  rw [uvmunmap]
  by_cases hbad : va.toNat % PGSIZE ≠ 0 ∨ MAXVA ≤ va.toNat ∨ (MAXVA - va.toNat) / PGSIZE < npages.toNat
  · rw [if_pos hbad]
    trivial
  rw [if_neg hbad]
  obtain ⟨haligned, hlow⟩ := not_or.mp hbad
  obtain ⟨hlt, hroom⟩ := not_or.mp hlow
  have haligned : va.toNat % PGSIZE = 0 := not_not.mp haligned
  have hstart : leaf m pt = clear (leaf m pt) (vpn va) (vpn va + 0) := by rw [Nat.add_zero, clear_self]
  refine ensures_mono (ensures_loop (fun i m' => Unmapped m m' pt X 0 ∧
    leaf m' pt = clear (leaf m pt) (vpn va) (vpn va + i)) ?_ ⟨hT.unmapped, hstart⟩) ?_
  · intro i m1 _ hi hI
    obtain ⟨hU, hleaf⟩ := hI
    have hpage : vpn (va + 4096 * UInt64.ofNat i) = vpn va + i := vpn_add haligned (by lia)
    have hT1 : Tree m1 2 pt ((if false = true then
        pageOf (leaf m1 pt (vpn (va + 4096 * UInt64.ofNat i))) else 0) + X) := by
      rw [if_neg (by decide), zero_add]
      exact hU.tree
    refine ensures_mono (unmapPage_after hT1) fun _ m2 h2 => ?_
    obtain ⟨hU2, hleaf2⟩ := h2
    rw [if_neg (by decide)] at hU2
    have hU' : Unmapped m m1 pt (0 + X) 0 := by
      rw [zero_add]
      exact hU
    refine ⟨hU'.trans hU2, ?_⟩
    rw [hleaf2, hpage, hleaf, ← Nat.add_assoc, clear_last (by omega)]
  · intro _ m' h
    rw [Nat.zero_add] at h
    exact h

theorem uvmunmap_keep_safe (hT : Tree m 2 pt X) (hok : Unmappable va npages) :
    Safe (uvmunmap pt va npages false) m := by
  obtain ⟨haligned, hlt, hroom⟩ := hok
  rw [uvmunmap, if_neg (by omega)]
  refine ensures_mono (ensures_loop (fun _ m' => m'.kend = m.kend ∧ Tree m' 2 pt X) ?_ ⟨rfl, hT⟩) fun _ _ h => h.1
  intro i m1 _ hi hI
  obtain ⟨hkend, hT1⟩ := hI
  have hpage : vpn (va + 4096 * UInt64.ofNat i) = vpn va + i := vpn_add haligned (by lia)
  have hbelow : (va + 4096 * UInt64.ofNat i).toNat < MAXVA := by
    unfold vpn at hpage
    lia
  have hT2 : Tree m1 2 pt ((if false = true then
      pageOf (leaf m1 pt (vpn (va + 4096 * UInt64.ofNat i))) else 0) + X) := by
    rw [if_neg (by decide), zero_add]
    exact hT1
  refine ensures_mono (ensures_and (unmapPage_safe hT1.shape hbelow fun hf => by cases hf) (unmapPage_after hT2))
    fun _ m2 h2 => ?_
  exact ⟨h2.1.trans hkend, h2.2.1.tree⟩

/-- `uvmunmap` gives back the pages it frees and clears the leaves of the range. -/
theorem uvmunmap_any_after (hT : Tree m 2 pt (freedPages m pt va npages doFree + X)) :
    After (uvmunmap pt va npages doFree)
      (fun _ m' => Unmapped m m' pt X (freedPages m pt va npages doFree) ∧
        leaf m' pt = clear (leaf m pt) (vpn va) (vpn va + npages.toNat)) m := by
  cases doFree with
  | false =>
    have hzero : freedPages m pt va npages false = 0 := if_neg (by decide)
    rw [hzero] at hT ⊢
    rw [zero_add] at hT
    exact uvmunmap_keep_after hT
  | true => exact uvmunmap_after hT

theorem uvmunmap_any_safe (hT : Tree m 2 pt (freedPages m pt va npages doFree + X)) (hok : Unmappable va npages)
    (hram : ∀ pg ∈ freedPages m pt va npages doFree, Ram m.kend pg) : Safe (uvmunmap pt va npages doFree) m := by
  cases doFree with
  | false => exact uvmunmap_keep_safe hT hok
  | true => exact uvmunmap_safe hT hok.1 hok.2.1 hok.2.2 hram

/-! ## The tables of a client -/

theorem Ram.isPage {kend : UInt64} (h : Ram kend pg) : IsPage pg := ⟨h.1, by have := h.2.2; lia⟩

/-- The pages of the table, the free pages and the pages of the client are distinct pages behind the kernel. -/
structure Sound (m : Mem) (pt : UInt64) (X : Multiset UInt64) : Prop where
  tree : Tree m 2 pt X
  ram : ∀ pg ∈ tabs m 2 pt + ↑m.free + X, Ram m.kend pg

theorem Ready.create (h : Ready m₀) (hrun : uvmcreate.run m₀ = .done (some pt) m) : Sound m pt 0 := by
  have hpost : After uvmcreate (fun r m => ∀ pt, r = some pt → Sound m pt 0) m₀ := by
    rw [uvmcreate, After, ensures_bind]
    refine kalloc_after (fun _ _ h => by cases h) fun pg rest hfree => ?_
    dsimp only
    rw [ensures_bind, ensures_modify]
    intro pt hpt
    cases hpt
    have hzero : ∀ i, (({ m₀ with free := rest }.fill pg 0).fill pg 0).page pg i = 0 := by simp [Mem.fill]
    obtain ⟨htabs, hshape, -⟩ := empty_tabs hzero 2
    have hpages : tabs (({ m₀ with free := rest }.fill pg 0).fill pg 0) 2 pg +
        ↑(({ m₀ with free := rest }.fill pg 0).fill pg 0).free + 0 = (m₀.free : Multiset UInt64) := by
      rw [htabs, hfree, add_zero, singleton_add, ← cons_coe]
      rfl
    refine ⟨⟨hshape, ?_, ?_⟩, ?_⟩
    · rw [hpages]
      exact coe_nodup.mpr h.nodup
    · intro q hq
      exact (h.ram q (by rw [hfree]; exact List.mem_cons_of_mem pg hq)).isPage
    · intro q hq
      rw [hpages] at hq
      exact h.ram q hq
  exact of_run_eq_done hpost hrun pt rfl

theorem leaf_of_create (hrun : uvmcreate.run m₀ = .done (some pt) m) (v : Nat) : leaf m pt v = none := by
  have hpost : After uvmcreate (fun r m => ∀ pt, r = some pt → ∀ v, leaf m pt v = none) m₀ := by
    rw [uvmcreate, After, ensures_bind]
    refine kalloc_after (fun _ _ h => by cases h) fun pg rest hfree => ?_
    dsimp only
    rw [ensures_bind, ensures_modify]
    intro pt hpt v
    cases hpt
    have hzero : ∀ i, (({ m₀ with free := rest }.fill pg 0).fill pg 0).page pg i = 0 := by simp [Mem.fill]
    rw [leaf]
    split
    · exact (empty_tabs hzero 2).2.2 _
    · rfl
  exact of_run_eq_done hpost hrun pt rfl v

/-- The pages only change their owner. -/
theorem Sound.moved (h : Sound m pt X) (hT : Tree m' 2 pt Y) (hkend : m'.kend = m.kend)
    (hpages : tabs m' 2 pt + ↑m'.free + Y = tabs m 2 pt + ↑m.free + X) : Sound m' pt Y := by
  refine ⟨hT, fun pg hpg => ?_⟩
  rw [hpages] at hpg
  rw [hkend]
  exact h.ram pg hpg

theorem Sound.take (h : Sound m pt X) (hrun : kalloc.run m = .done (some pg) m') : Sound m' pt (pg ::ₘ X) := by
  have hpool : Pool m (tabs m 2 pt + X) := by
    refine ⟨?_, h.tree.good⟩
    convert h.tree.nodup using 1
    abel
  have hpost := of_run_eq_done (ensures_and (kalloc_safe m) hpool.kalloc_after) hrun
  obtain ⟨hkend, ⟨hnone, -⟩ | ⟨q, hq, hA⟩⟩ := hpost
  · cases hnone
  cases hq
  have hsame : Same m m' 2 pt := .of_agree (hA.agree.mono fun q hq => mem_add.mpr (.inl hq))
  have hpages : tabs m' 2 pt + ↑m'.free + pg ::ₘ X = tabs m 2 pt + ↑m.free + X := by
    rw [hsame.tabs, hA.free, ← singleton_add, ← singleton_add]
    abel
  refine h.moved ⟨hsame.shape h.tree.shape, ?_, hA.pool.good⟩ hkend hpages
  rw [hpages]
  exact h.tree.nodup

theorem Sound.give (h : Sound m pt (pg ::ₘ X)) (hrun : (kfree pg).run m = .done () m') : Sound m' pt X := by
  have hram : Ram m.kend pg := h.ram pg (mem_add.mpr (.inr (mem_cons_self pg X)))
  have hpost : After (kfree pg) (fun _ m' => m' = m.release pg) m := kfree_after fun _ => rfl
  obtain rfl := of_run_eq_done hpost hrun
  obtain ⟨hT, hsame, -⟩ := h.tree.free hram.isPage
  refine h.moved hT rfl ?_
  rw [hsame.tabs, release_free, ← singleton_add]
  abel

theorem Sound.store (h : Sound m pt X) (f : Fin 512 → UInt64) (hpg : pg ∈ X) :
    Sound { m with page := update m.page pg f } pt X := by
  have hnot : pg ∉ tabs m 2 pt := fun hmem =>
    disjoint_left.mp (nodup_add.mp h.tree.nodup).2.2 (mem_add.mpr (.inl hmem)) hpg
  have hsame : Same m { m with page := update m.page pg f } 2 pt :=
    .of_agree fun q hq => update_of_ne (ne_of_mem_of_not_mem hq hnot) _ _
  refine h.moved ⟨hsame.shape h.tree.shape, ?_, h.tree.good⟩ rfl ?_
  · rw [hsame.tabs]
    exact h.tree.nodup
  · rw [hsame.tabs]

theorem Sound.kept (h : Sound m pt X) (hK : Kept m m' 2 pt X) (hkend : m'.kend = m.kend) : Sound m' pt X := by
  refine h.moved (hK.tree h.tree) hkend ?_
  rw [hK.pages]

theorem Sound.unmapped {S : Multiset UInt64} (h : Sound m pt (S + X)) (hU : Unmapped m m' pt X S)
    (hkend : m'.kend = m.kend) : Sound m' pt X := by
  refine h.moved hU.tree hkend ?_
  rw [hU.tabs, hU.free]
  abel

theorem Client.sound (h : Client m₀ pt m X) (hm0 : Ready m₀) : Sound m pt X := by
  induction h with
  | create hrun => exact hm0.create hrun
  | take _ hrun ih => exact ih.take hrun
  | give _ hrun ih => exact ih.give hrun
  | store f _ hpg ih => exact ih.store f hpg
  | map _ hone hperm _ hrun ih =>
    rw [mappages_onePage hone] at hrun
    obtain ⟨hkend, hM⟩ := of_run_eq_done (ensures_and (fixed_mapPage ..) (mapPage_after ih.tree hperm)) hrun
    exact ih.kept hM.kept hkend
  | unmap _ hrun ih =>
    obtain ⟨hkend, hU, -⟩ := of_run_eq_done (ensures_and (fixed_uvmunmap ..) (uvmunmap_any_after ih.tree)) hrun
    exact ih.unmapped hU hkend

/-! ## The operations of the map -/

theorem translation_eq (m : Mem) (pt : UInt64) :
    translation m pt = Option.map (fun e => (PTE2PA e, PTE_FLAGS e)) ∘ leaf m pt := rfl

theorem translation_eq_none : translation m pt v = none ↔ leaf m pt v = none := Option.map_eq_none_iff

/-- A page is mapped where none is, or there are too few pages for the tables and nothing changes. -/
theorem Sound.mappages (h : Sound m pt X) (hone : OnePage va size) (hva : va.toNat < MAXVA) (hpa : IsPage pa)
    (hbits : perm.toNat < 1024) (hperm : Has perm (PTE_R ||| PTE_W ||| PTE_X))
    (hnone : translation m pt (vpn va) = none) :
    ∃ ok m', (mappages pt va size pa perm).run m = .done ok m' ∧
      (ok → translation m' pt = update (translation m pt) (vpn va) (some (pa, perm ||| PTE_V))) ∧
      (ok = false → translation m' pt = translation m pt ∧ m.free.length < 2) := by
  have hpage := vpn_PGROUNDDOWN va
  have hlt : (PGROUNDDOWN va).toNat < MAXVA := by
    rw [toNat_PGROUNDDOWN]
    lia
  have hleaf : leaf m pt (vpn (PGROUNDDOWN va)) = none := by
    rw [hpage]
    exact translation_eq_none.mp hnone
  have hfail : After (mapPage pt perm (PGROUNDDOWN va) pa) (fun ok _ => ok = false → m.free.length < 2) m := by
    by_cases hlen : m.free.length < 2
    · exact ensures_mono (after_any _ _) fun _ _ _ _ => hlen
    · refine ensures_mono (mapPage_enough (Nat.le_of_not_lt hlen)) fun ok _ htrue hfalse => ?_
      cases htrue.symm.trans hfalse
  rw [mappages_onePage hone]
  have hsafe : Safe (mapPage pt perm (PGROUNDDOWN va) pa) m := mapPage_safe h.tree hlt hleaf
  obtain ⟨ok, m', hrun, -⟩ := exists_done_of_ensures hsafe
  obtain ⟨hM, hshort⟩ := of_run_eq_done (ensures_and (mapPage_after h.tree hperm) hfail) hrun
  refine ⟨ok, m', hrun, fun htrue => ?_, fun hfalse => ⟨?_, hshort hfalse⟩⟩
  · rw [translation_eq, hM.done htrue, Function.comp_update, hpage, or_assoc_entry, Option.map_some,
      PTE2PA_PA2PTE hpa (or_PTE_V_lt hbits), PTE_FLAGS_PA2PTE (or_PTE_V_lt hbits)]
    rfl
  · rw [translation_eq, hM.fail hfalse]
    rfl

/-- The translations of a range are removed. -/
theorem Sound.uvmunmap (h : Sound m pt (freedPages m pt va npages doFree + X)) (hok : Unmappable va npages) :
    ∃ m', (uvmunmap pt va npages doFree).run m = .done () m' ∧
      ∀ v, translation m' pt v = if vpn va ≤ v ∧ v < vpn va + npages.toNat then none else translation m pt v := by
  have hram : ∀ pg ∈ freedPages m pt va npages doFree, Ram m.kend pg := fun pg hpg =>
    h.ram pg (mem_add.mpr (.inr (mem_add.mpr (.inl hpg))))
  obtain ⟨_, m', hrun, -⟩ := exists_done_of_ensures (uvmunmap_any_safe h.tree hok hram)
  obtain ⟨-, hleaf⟩ := of_run_eq_done (uvmunmap_any_after h.tree) hrun
  refine ⟨m', hrun, fun v => ?_⟩
  rw [translation, hleaf, clear]
  split
  · rfl
  · rfl

/-- A table without translations is freed, page by page. -/
theorem Sound.freewalk (h : Sound m pt X) (hempty : ∀ v, translation m pt v = none) :
    ∃ m', (freewalk 3 pt).run m = .done () m' ∧ (m'.free : Multiset UInt64) = tabs m 2 pt + ↑m.free ∧
      m'.free.Nodup := by
  have hnone := lookup_of_leaf fun v => translation_eq_none.mp (hempty v)
  have hram : ∀ pg ∈ tabs m 2 pt + ↑m.free, Ram m.kend pg := fun pg hpg => h.ram pg (mem_add.mpr (.inl hpg))
  obtain ⟨_, m', hrun, -⟩ := exists_done_of_ensures (freewalk_safe (Nat.le_refl 2) h.tree hnone hram)
  have hF := of_run_eq_done (freewalk_after h.tree) hrun
  refine ⟨m', hrun, hF.free, ?_⟩
  rw [← coe_nodup, hF.free]
  exact (nodup_add.mp h.tree.nodup).1

/-- The functions on the page table `pt` are the operations of the partial map that it defines, and the table is a
tree of distinct pages. -/
structure Refines (m : Mem) (pt : UInt64) (X : Multiset UInt64) : Prop where
  nodup : (tabs m 2 pt + ↑m.free + X).Nodup
  bound : ∀ v, translation m pt v ≠ none → 4096 * v < MAXVA
  map : ∀ va size pa perm, OnePage va size → va.toNat < MAXVA → IsPage pa → perm.toNat < 1024 →
    Has perm (PTE_R ||| PTE_W ||| PTE_X) → translation m pt (vpn va) = none →
    ∃ ok m', (mappages pt va size pa perm).run m = .done ok m' ∧
      (ok = true → translation m' pt = update (translation m pt) (vpn va) (some (pa, perm ||| PTE_V))) ∧
      (ok = false → translation m' pt = translation m pt ∧ m.free.length < 2)
  unmap : ∀ va npages doFree Y, Unmappable va npages → X = freedPages m pt va npages doFree + Y →
    ∃ m', (uvmunmap pt va npages doFree).run m = .done () m' ∧
      ∀ v, translation m' pt v = if vpn va ≤ v ∧ v < vpn va + npages.toNat then none else translation m pt v
  free : (∀ v, translation m pt v = none) →
    ∃ m', (freewalk 3 pt).run m = .done () m' ∧ (m'.free : Multiset UInt64) = tabs m 2 pt + ↑m.free ∧ m'.free.Nodup

def smallRam : Mem where
  page _ _ := 0
  free := [0x80200000, 0x80201000, 0x80202000, 0x80203000, 0x80204000, 0x80205000]
  kend := 0x80100000

theorem ready_smallRam : Ready smallRam := by
  refine ⟨by decide, fun pg hpg => ?_⟩
  have hall : (smallRam.free.all fun pg =>
      decide (pg.toNat % PGSIZE = 0 ∧ smallRam.kend ≤ pg ∧ pg.toNat < PHYSTOP)) = true := by decide
  have hin := of_decide_eq_true (List.all_eq_true.mp hall pg hpg)
  exact hin

theorem not_nodup_of_child {c : UInt64} {i j : Fin 512} (hi : child m pt i = some c) (hj : child m c j = some c) :
    ¬ (tabs m 2 pt).Nodup := by
  rw [tabs_succ m 1 pt i, below_of_child hi, tabs_succ m 0 c j, below_of_child hj]
  intro h
  have h1 := (nodup_cons.mp h).2
  rw [cons_add] at h1
  refine (nodup_cons.mp h1).1 (mem_add.mpr (.inl (mem_add.mpr (.inl ?_))))
  exact mem_tabs_self m 0 c

/-- A page is mapped at two addresses and unmapped at both with `do_free`; it is then twice on the free list, and
the next `mappages` uses it for tables of two levels. -/
def unmapTwice : Prog Mem Bool := do
  let _ ← uvmcreate
  let _ ← kalloc
  let _ ← mappages 0x80200000 0 4096 0x80201000 (PTE_R ||| PTE_U)
  let _ ← mappages 0x80200000 4096 4096 0x80201000 (PTE_R ||| PTE_U)
  uvmunmap 0x80200000 0 1 true
  uvmunmap 0x80200000 4096 1 true
  mappages 0x80200000 0x40001000 4096 0x80205000 (PTE_R ||| PTE_U)

/-- A page is mapped without any of the permissions R, W and X and then unmapped. -/
def unmapNonLeaf : Prog Mem Unit := do
  let _ ← uvmcreate
  let _ ← mappages 0x80200000 0 4096 0x80205000 PTE_U
  uvmunmap 0x80200000 0 1 false

end Xv6.Vm
