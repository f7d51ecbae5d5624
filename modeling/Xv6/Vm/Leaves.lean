import Mathlib.Algebra.BigOperators.Intervals
import Xv6.Vm.Own

/-!
# The leaves of an address space

An address space is read as a map from virtual page numbers to leaves. `mappages` of one page and
`uvmunmap` change the map at the pages they are given; `span` are the pages that a part of the map
refers to.
-/

namespace Xv6.Vm

open Coop Prog Data Function Multiset

def vpn (va : UInt64) : Nat := va.toNat / 4096

def leaf (m : Mem) (pt : UInt64) (v : Nat) : Option UInt64 :=
  if v < 2 ^ 27 then lookup m (UInt64.ofNat (4096 * v)) 2 pt else none

variable {m m' : Mem} {pt pg va a pa w : UInt64} {v : Nat} {X Y : Multiset UInt64}

theorem toNat_page (hv : v < 2 ^ 27) : (UInt64.ofNat (4096 * v)).toNat = 4096 * v := by
  rw [UInt64.toNat_ofNat']
  exact Nat.mod_eq_of_lt (by omega)

theorem samePage_iff (hva : va.toNat < MAXVA) (hv : v < 2 ^ 27) :
    SamePage 2 va (UInt64.ofNat (4096 * v)) ↔ v = vpn va := by
  have hpage := toNat_page hv
  have hlt : va.toNat < 2 ^ 39 := hva
  unfold SamePage PX vpn
  constructor
  · intro h
    have h0 := congrArg Fin.val (h 0 (by omega))
    have h1 := congrArg Fin.val (h 1 (by omega))
    have h2 := congrArg Fin.val (h 2 (by omega))
    simp only [Fin.ofNat, hpage, Nat.reduceMul, Nat.reduceAdd, Nat.reducePow] at h0 h1 h2
    omega
  · intro h k hk
    have hdiv : (UInt64.ofNat (4096 * v)).toNat / 2 ^ (12 + 9 * k) = va.toNat / 2 ^ (12 + 9 * k) := by
      rw [hpage, h, Nat.pow_add, ← Nat.div_div_eq_div_mul, ← Nat.div_div_eq_div_mul]
      congr 1
      omega
    rw [hdiv]

theorem vpn_lt (hva : va.toNat < MAXVA) : vpn va < 2 ^ 27 := by
  unfold vpn
  lia

theorem find_samePage {l : Nat} {va' : UInt64} (h : SamePage l va va') : find m va' l pt = find m va l pt := by
  induction l generalizing pt with
  | zero => rw [find, find, h 0 (Nat.le_refl 0)]
  | succ l ih =>
    rw [find, find, h (l + 1) (Nat.le_refl _)]
    refine congrArg _ (funext fun c => ih fun k hk => h k (by omega))

theorem leaf_vpn (hva : va.toNat < MAXVA) : leaf m pt (vpn va) = lookup m va 2 pt := by
  have hv := vpn_lt hva
  rw [leaf, if_pos hv, lookup, lookup, find_samePage ((samePage_iff hva hv).mpr rfl)]

theorem Same.leaf (h : Same m m' 2 pt) : leaf m' pt = leaf m pt := by
  funext v
  unfold Vm.leaf
  rw [h.lookup]

theorem leaf_congr (h : ∀ va', lookup m' va' 2 pt = lookup m va' 2 pt) : leaf m' pt = leaf m pt := by
  funext v
  rw [leaf, leaf, h]

theorem Wrote.leaf (h : Wrote m m' 2 pt va w) (hva : va.toNat < MAXVA) :
    leaf m' pt = update (leaf m pt) (vpn va) (if Has w PTE_V then some w else none) := by
  funext v
  by_cases hv : v < 2 ^ 27
  · rw [Vm.leaf, if_pos hv]
    by_cases heq : v = vpn va
    · rw [h.self _ ((samePage_iff hva hv).mpr heq), heq, update_self]
    · rw [h.other _ (mt (samePage_iff hva hv).mp heq), update_of_ne heq, Vm.leaf, if_pos hv]
  · have hne : v ≠ vpn va := fun heq => hv (heq ▸ vpn_lt hva)
    rw [update_of_ne hne, Vm.leaf, Vm.leaf, if_neg hv, if_neg hv]

/-! ## Mapping a page -/

theorem Tree.setLeaf {t : UInt64} {i : Fin 512} (hT : Tree m 2 pt X) (hva : va.toNat < MAXVA)
    (hfind : find m va 2 pt = some (t, i))
    (hw : Has w PTE_V → Has w (PTE_R ||| PTE_W ||| PTE_X)) :
    Kept m (m.setWord t i w) 2 pt X ∧
      leaf (m.setWord t i w) pt =
        update (leaf m pt) (vpn va) (if Has w PTE_V then some w else none) := by
  obtain ⟨hnd, -, hdisj⟩ := nodup_add.mp hT.nodup
  obtain ⟨hnd, -, -⟩ := nodup_add.mp hnd
  have hwrote := Wrote.of_find (w := w) hnd hfind
  have ht : t ∉ X :=
    disjoint_left.mp hdisj (mem_add.mpr (.inl (find_mem hfind)))
  refine ⟨⟨hwrote.shape hT.shape hw, ?_, .setWord ht, hT.good⟩, hwrote.leaf hva⟩
  rw [hwrote.tabs]
  rfl

/-- One page was mapped, or nothing was. -/
structure Mapped (m m' : Mem) (pt a e : UInt64) (X : Multiset UInt64) (ok : Bool) : Prop where
  kept : Kept m m' 2 pt X
  lt : a.toNat < MAXVA
  fail : ok = false → leaf m' pt = leaf m pt
  new : ok = true → leaf m pt (vpn a) = none
  done : ok = true → leaf m' pt = update (leaf m pt) (vpn a) (some e)

theorem mapPage_after {perm : UInt64} (hT : Tree m 2 pt X) (hperm : Has perm (PTE_R ||| PTE_W ||| PTE_X)) :
    After (mapPage pt perm a pa)
      (fun ok m' => Mapped m m' pt a (PA2PTE pa ||| perm ||| PTE_V) X ok) m := by
  rw [mapPage, walk]
  by_cases ha : MAXVA ≤ a.toNat
  · rw [if_pos ha]
    trivial
  · have hlt : a.toNat < MAXVA := Nat.lt_of_not_le ha
    rw [if_neg ha]
    refine ensures_seq (walkFrom_after a hT) fun r m1 hW => ?_
    cases r with
    | none =>
      exact ⟨hW.kept, hlt, fun _ => leaf_congr hW.lookup, nofun, nofun⟩
    | some p =>
      obtain ⟨t, i⟩ := p
      have hfind := hW.find _ rfl
      have hT1 := hW.kept.tree hT
      rw [ensures_bind, ensures_gets]
      by_cases hv : Has (m1.page t i) PTE_V
      · rw [if_pos hv]
        trivial
      · rw [if_neg hv, ensures_bind, ensures_modify]
        obtain ⟨hkept, hleaf⟩ := hT1.setLeaf hlt hfind
          fun _ => or_has.mpr (.inl (or_has.mpr (.inr hperm)))
        have hw : Has (PA2PTE pa ||| perm ||| PTE_V) PTE_V := or_has.mpr (.inr (by decide))
        rw [if_pos hw] at hleaf
        refine ⟨hW.kept.trans hkept, hlt, nofun, ?_, ?_⟩
        · intro _
          rw [leaf_vpn hlt, ← hW.lookup, lookup, hfind, Option.bind_some, if_neg hv]
        · intro _
          rw [hleaf, leaf_congr hW.lookup]

/-- A page-sized call of `mappages` makes one round. -/
theorem mappages_page {perm : UInt64} (ha : a.toNat % 4096 = 0) :
    mappages pt a 4096 pa perm = mapPage pt perm a pa := by
  have hlt := a.toNat_lt
  have hfirst : PGROUNDDOWN a = a := by
    refine UInt64.toNat_inj.mp ?_
    rw [toNat_PGROUNDDOWN]
    omega
  have hlast : PGROUNDDOWN (a + 4096 - 1) = a := by
    have hsize : (4096 : UInt64).toNat = 4096 := rfl
    have hone : (1 : UInt64).toNat = 1 := rfl
    refine UInt64.toNat_inj.mp ?_
    rw [toNat_PGROUNDDOWN, UInt64.toNat_sub, UInt64.toNat_add, hsize, hone]
    omega
  simp only [mappages, hfirst, hlast, UInt64.sub_self]
  rfl

/-! ## Unmapping -/

def pageOf (e : Option UInt64) : Multiset UInt64 := e.elim 0 fun e => {PTE2PA e}

theorem walkFrom_find (va : UInt64) (l : Nat) (pt : UInt64) (m : Mem) :
    After (walkFrom va false l pt) (fun r m' => m' = m ∧ r = find m va l pt) m := by
  induction l generalizing pt with
  | zero => exact ⟨rfl, rfl⟩
  | succ l ih =>
    rw [walkFrom, After, ensures_bind, ensures_gets, find, child]
    by_cases hv : Has (m.page pt (PX (l + 1) va)) PTE_V
    · rw [if_pos hv, if_pos hv]
      exact ih _
    · rw [if_neg hv, if_neg hv, if_neg (by decide)]
      exact ⟨rfl, rfl⟩

theorem Tree.free {l : Nat} (hT : Tree m l pt (pg ::ₘ X)) (hpage : IsPage pg) :
    Tree (m.release pg) l pt X ∧ Same m (m.release pg) l pt ∧ Agree m (m.release pg) X := by
  have hnd := hT.nodup
  rw [add_cons] at hnd
  have hnot := (nodup_cons.mp hnd).1
  simp only [mem_add, not_or] at hnot
  have hfill : ∀ {S : Multiset UInt64}, pg ∉ S → Agree m (m.release pg) S := Agree.fill
  have hsame : Same m (m.release pg) l pt := .of_agree (hfill hnot.1.1)
  refine ⟨⟨hsame.shape hT.shape, ?_, ?_⟩, hsame, hfill hnot.2⟩
  · rw [hsame.tabs, release_free, singleton_add, add_cons, cons_add]
    exact hnd
  · intro q hq
    rcases List.mem_cons.mp hq with rfl | hq
    · exact hpage
    · exact hT.good q hq

/-- The pages `freed` have gone from a tree to the free pages. -/
structure Unmapped (m m' : Mem) (pt : UInt64) (X freed : Multiset UInt64) : Prop where
  tree : Tree m' 2 pt X
  tabs : Vm.tabs m' 2 pt = Vm.tabs m 2 pt
  free : (m'.free : Multiset UInt64) = freed + ↑m.free
  agree : Agree m m' X

theorem Tree.unmapped (hT : Tree m 2 pt X) : Unmapped m m pt X 0 :=
  ⟨hT, rfl, (zero_add _).symm, .refl m X⟩

theorem Unmapped.clear {t : UInt64} {i : Fin 512} {S : Multiset UInt64} (h : Unmapped m m' pt X S)
    (hleaf : leaf m' pt = leaf m pt) (ha : a.toNat < MAXVA) (hfind : find m' a 2 pt = some (t, i)) :
    Unmapped m (m'.setWord t i 0) pt X S ∧
      leaf (m'.setWord t i 0) pt = update (leaf m pt) (vpn a) none := by
  obtain ⟨hK, hnew⟩ := h.tree.setLeaf (w := 0) ha hfind fun h0 => absurd h0 (by decide)
  have htabs : Vm.tabs (m'.setWord t i 0) 2 pt = Vm.tabs m' 2 pt := add_right_cancel hK.pages
  refine ⟨⟨hK.tree h.tree, htabs.trans h.tabs, h.free, h.agree.trans hK.agree⟩, ?_⟩
  rw [hnew, hleaf]
  rfl

theorem unmapPage_after {doFree : Bool} (hT : Tree m 2 pt ((if doFree then pageOf (leaf m pt (vpn a)) else 0) + X)) :
    After (unmapPage pt a doFree)
      (fun _ m' => Unmapped m m' pt X (if doFree then pageOf (leaf m pt (vpn a)) else 0) ∧
        leaf m' pt = update (leaf m pt) (vpn a) none) m := by
  rw [unmapPage, walk]
  by_cases ha : MAXVA ≤ a.toNat
  · rw [if_pos ha]
    trivial
  have hlt : a.toNat < MAXVA := Nat.lt_of_not_le ha
  have hskip : leaf m pt (vpn a) = none → Unmapped m m pt X (if doFree then pageOf (leaf m pt (vpn a)) else 0) ∧
        leaf m pt = update (leaf m pt) (vpn a) none := by
    intro hnone
    have hzero : (if doFree then pageOf (leaf m pt (vpn a)) else 0) = 0 := by
      rw [hnone]
      exact ite_self 0
    rw [hzero, zero_add] at hT
    rw [hzero]
    exact ⟨hT.unmapped, (update_eq_self_iff.mpr hnone.symm).symm⟩
  rw [if_neg ha]
  refine ensures_seq (walkFrom_find a 2 pt m) fun r m' hfound => ?_
  rw [hfound.1, hfound.2]
  cases hfind : find m a 2 pt with
  | none =>
    refine hskip ?_
    rw [leaf_vpn hlt, lookup, hfind]
    rfl
  | some p =>
    obtain ⟨t, i⟩ := p
    rw [ensures_bind, ensures_gets]
    have hleaf : leaf m pt (vpn a) = if Has (m.page t i) PTE_V then some (m.page t i) else none := by
      rw [leaf_vpn hlt, lookup, hfind]
      rfl
    by_cases hv : Has (m.page t i) PTE_V
    · rw [if_neg (not_not.mpr hv)]
      rw [if_pos hv] at hleaf
      by_cases hrwx : Has (m.page t i) (PTE_R ||| PTE_W ||| PTE_X)
      · rw [if_neg (not_not.mpr hrwx)]
        cases doFree with
        | false =>
          rw [if_neg (by decide), zero_add] at hT
          exact hT.unmapped.clear rfl hlt hfind
        | true =>
          rw [if_pos rfl, hleaf] at hT
          simp only [if_true, ensures_bind, ensures_modify, hleaf]
          refine kfree_after fun hpage => ?_
          obtain ⟨hT1, hsame, hX⟩ := hT.free hpage
          have hU : Unmapped m (m.release (PTE2PA (m.page t i))) pt X (pageOf (some (m.page t i))) :=
            ⟨hT1, hsame.tabs, release_free m _, hX⟩
          exact hU.clear hsame.leaf hlt ((hsame.find a).trans hfind)
      · rw [if_pos hrwx]
        trivial
    · rw [if_pos hv]
      rw [if_neg hv] at hleaf
      exact hskip hleaf

/-- The pages that the leaves from `a` up to `b` refer to. -/
def span (L : Nat → Option UInt64) (a b : Nat) : Multiset UInt64 := ∑ v ∈ Finset.Ico a b, pageOf (L v)

/-- The leaves from `a` up to `b` are gone. -/
def clear (L : Nat → Option UInt64) (a b v : Nat) : Option UInt64 :=
  if a ≤ v ∧ v < b then none else L v

variable {L : Nat → Option UInt64} {b n : Nat}

theorem span_self (L : Nat → Option UInt64) (b : Nat) : span L b b = 0 := by
  simp [span]

theorem span_head (h : v < b) : span L v b = pageOf (L v) + span L (v + 1) b :=
  Finset.sum_eq_sum_Ico_succ_bot h fun v => pageOf (L v)

theorem span_last (h : v ≤ b) : span L v (b + 1) = span L v b + pageOf (L b) :=
  Finset.sum_Ico_succ_top h fun v => pageOf (L v)

theorem span_one (L : Nat → Option UInt64) (v : Nat) : span L v (v + 1) = pageOf (L v) := by
  rw [span_last (Nat.le_refl v), span_self, zero_add]

theorem span_congr {L' : Nat → Option UInt64} (h : ∀ u, v ≤ u → u < b → L' u = L u) : span L' v b = span L v b := by
  refine Finset.sum_congr rfl fun u hu => ?_
  rw [Finset.mem_Ico] at hu
  rw [h u hu.1 hu.2]

/-- Two leaves with the same page are the same. -/
theorem span_inj {u : Nat} {e e' : UInt64} (hnd : (span L b n).Nodup) (hu : u ∈ Finset.Ico b n)
    (hv : v ∈ Finset.Ico b n) (he : L u = some e) (he' : L v = some e') (heq : PTE2PA e' = PTE2PA e) : v = u := by
  by_contra hne
  rw [span, ← Finset.add_sum_erase _ _ hu] at hnd
  obtain ⟨-, -, hdisj⟩ := nodup_add.mp hnd
  have hself : PTE2PA e ∈ pageOf (L u) := by
    rw [he]
    exact mem_singleton_self _
  refine disjoint_left.mp hdisj hself (mem_sum.mpr ⟨v, Finset.mem_erase.mpr ⟨hne, hv⟩, ?_⟩)
  rw [he', ← heq]
  exact mem_singleton_self _

theorem clear_self (L : Nat → Option UInt64) (b : Nat) : clear L b b = L := by
  funext v
  rw [clear, if_neg (by omega)]

theorem clear_last (h : v ≤ b) : clear L v (b + 1) = update (clear L v b) b none := by
  funext u
  rcases eq_or_ne u b with rfl | hub
  · rw [update_self, clear, if_pos (by omega)]
  · rw [update_of_ne hub, clear, clear]
    have hiff : (v ≤ u ∧ u < b + 1) ↔ (v ≤ u ∧ u < b) := by omega
    simp only [hiff]

theorem Unmapped.trans {m'' : Mem} {S F F' : Multiset UInt64} (h : Unmapped m m' pt (S + X) F)
    (h' : Unmapped m' m'' pt X F') : Unmapped m m'' pt X (F + F') := by
  refine ⟨h'.tree, h'.tabs.trans h.tabs, ?_, (h.agree.mono fun q hq => ?_).trans h'.agree⟩
  · rw [h'.free, h.free]
    abel
  · exact mem_add.mpr (.inr hq)

theorem vpn_add (hva : va.toNat % PGSIZE = 0) (hlt : va.toNat + 4096 * n < 2 ^ 64) :
    vpn (va + 4096 * UInt64.ofNat n) = vpn va + n := by
  have hsize : (4096 : UInt64).toNat = 4096 := rfl
  unfold vpn
  rw [UInt64.toNat_add, UInt64.toNat_mul, UInt64.toNat_ofNat', hsize]
  have h1 : n % 2 ^ 64 = n := Nat.mod_eq_of_lt (by omega)
  rw [h1, Nat.mod_eq_of_lt (a := 4096 * n) (by omega), Nat.mod_eq_of_lt hlt]
  lia

/-- `uvmunmap` of the pages from `b` up to `c`, after `k` of them. -/
structure Unmapping (m m' : Mem) (pt : UInt64) (X : Multiset UInt64) (b c k : Nat) : Prop where
  unmapped : Unmapped m m' pt (span (Vm.leaf m pt) (b + k) c + X) (span (Vm.leaf m pt) b (b + k))
  leaf : Vm.leaf m' pt = clear (Vm.leaf m pt) b (b + k)

theorem Unmapping.start {c : Nat} (hT : Tree m 2 pt (span (Vm.leaf m pt) b c + X)) : Unmapping m m pt X b c 0 := by
  refine ⟨?_, ?_⟩
  · rw [Nat.add_zero, span_self]
    exact hT.unmapped
  · rw [Nat.add_zero, clear_self]

theorem Unmapping.step {c k : Nat} (h : Unmapping m m' pt X b c k) (ha : vpn a = b + k) (hk : b + k < c) :
    After (unmapPage pt a true) (fun _ m'' => Unmapping m m'' pt X b c (k + 1)) m' := by
  obtain ⟨hU, hleaf⟩ := h
  have hsame : Vm.leaf m' pt (b + k) = Vm.leaf m pt (b + k) := by
    rw [hleaf, clear, if_neg (by omega)]
  have hT : Tree m' 2 pt ((if true then pageOf (Vm.leaf m' pt (vpn a)) else 0) +
      (span (Vm.leaf m pt) (b + k + 1) c + X)) := by
    rw [if_pos rfl, ha, hsame, ← add_assoc, ← span_head hk]
    exact hU.tree
  refine ensures_mono (unmapPage_after hT) fun _ m2 h2 => ?_
  obtain ⟨hU2, hleaf2⟩ := h2
  rw [if_pos rfl, ha, hsame] at hU2
  rw [ha, hleaf] at hleaf2
  refine ⟨?_, ?_⟩
  · rw [← Nat.add_assoc, span_last (by omega)]
    rw [span_head hk, add_assoc] at hU
    exact hU.trans hU2
  · rw [hleaf2, ← Nat.add_assoc, clear_last (by omega)]

/-- `uvmunmap` frees the pages of a range and clears their leaves. -/
theorem uvmunmap_after {npages : UInt64} (hT : Tree m 2 pt (span (leaf m pt) (vpn va) (vpn va + npages.toNat) + X)) :
    After (uvmunmap pt va npages true)
      (fun _ m' => Unmapped m m' pt X (span (leaf m pt) (vpn va) (vpn va + npages.toNat)) ∧
        leaf m' pt = clear (leaf m pt) (vpn va) (vpn va + npages.toNat)) m := by
  rw [uvmunmap]
  by_cases hbad : va.toNat % PGSIZE ≠ 0 ∨ MAXVA ≤ va.toNat ∨ (MAXVA - va.toNat) / PGSIZE < npages.toNat
  · rw [if_pos hbad]
    trivial
  rw [if_neg hbad]
  obtain ⟨haligned, hlow⟩ := not_or.mp hbad
  obtain ⟨hlt, hroom⟩ := not_or.mp hlow
  have haligned : va.toNat % PGSIZE = 0 := not_not.mp haligned
  refine ensures_mono (ensures_loop (fun i m' =>
    Unmapping m m' pt X (vpn va) (vpn va + npages.toNat) i) ?_ (.start hT)) ?_
  · intro i m1 _ hi hI
    exact hI.step (vpn_add haligned (by lia)) (by omega)
  · intro _ m' h
    obtain ⟨hU, hleaf⟩ := h
    rw [Nat.zero_add] at hU hleaf
    rw [span_self, zero_add] at hU
    exact ⟨hU, hleaf⟩

end Xv6.Vm
