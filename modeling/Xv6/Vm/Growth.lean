import Xv6.Vm.Translation

/-!
# Growing and shrinking an address space

`uvmalloc` adds the pages up to the new size or leaves the address space as it was. The loop is followed by what it
has reached: the pages from `b` up to `b + k` are new, and the pages in `P` are in the hands of the program.
-/

namespace Xv6.Vm

open Coop Prog Data Function Multiset

def uvmdealloc (pt oldsz newsz : UInt64) : Prog Mem UInt64 :=
  if oldsz ≤ newsz then pure oldsz
  else do
    if PGROUNDUP newsz < PGROUNDUP oldsz then
      uvmunmap pt (PGROUNDUP newsz) ((PGROUNDUP oldsz - PGROUNDUP newsz) / 4096) true
    else pure ()
    pure newsz

/-- New pages `b` up to `b + k`, each on a free page of `m` that has been filled with zeros. -/
structure Grown (m m' : Mem) (pt perm : UInt64) (X P : Multiset UInt64) (b k : Nat) : Prop where
  tree : Tree m' 2 pt (span (leaf m' pt) b (b + k) + P + X)
  pages : tabs m' 2 pt + span (leaf m' pt) b (b + k) + P + ↑m'.free = tabs m 2 pt + ↑m.free
  other : ∀ v, ¬ (b ≤ v ∧ v < b + k) → leaf m' pt v = leaf m pt v
  new : ∀ v, b ≤ v → v < b + k → ∃ pg ∈ m.free, IsPage pg ∧ (∀ i, m'.page pg i = 0) ∧
    leaf m' pt v = some (PA2PTE pg ||| perm ||| PTE_V)
  free : ∀ q ∈ m'.free, q ∈ m.free
  agree : Agree m m' X

variable {m m1 m' : Mem} {pt pg va a start newsz oldsz xperm perm : UInt64} {b k n v : Nat} {X P : Multiset UInt64}

theorem Tree.grown (hT : Tree m 2 pt X) (perm : UInt64) (b : Nat) : Grown m m pt perm X 0 b 0 := by
  refine ⟨?_, ?_, fun v _ => rfl, fun v h1 h2 => absurd h2 (by omega), fun q hq => hq, .refl m X⟩
  · rw [Nat.add_zero, span_self, zero_add, zero_add]
    exact hT
  · rw [Nat.add_zero, span_self, add_zero, add_zero]

/-! ## Free pages are only taken -/

theorem walkFrom_free (va : UInt64) (alloc : Bool) (l : Nat) (pt : UInt64) (m : Mem) :
    After (walkFrom va alloc l pt) (fun _ m' => ∀ q ∈ m'.free, q ∈ m.free) m := by
  induction l generalizing pt m with
  | zero => exact fun q hq => hq
  | succ l ih =>
    rw [walkFrom, After, ensures_bind, ensures_gets]
    by_cases hv : Has (m.page pt (PX (l + 1) va)) PTE_V
    · rw [if_pos hv]
      exact ih _ m
    · rw [if_neg hv]
      cases alloc with
      | false => exact fun q hq => hq
      | true =>
        rw [if_pos rfl, ensures_bind]
        refine kalloc_after (fun _ q hq => hq) fun pg rest hfree => ?_
        simp only [ensures_bind, ensures_modify]
        refine ensures_mono (ih pg _) fun _ m' h q hq => ?_
        rw [hfree]
        exact List.mem_cons_of_mem pg (h q hq)

theorem mapPage_free (pt perm a pa : UInt64) (m : Mem) :
    After (mapPage pt perm a pa) (fun _ m' => ∀ q ∈ m'.free, q ∈ m.free) m := by
  rw [mapPage, walk]
  by_cases ha : MAXVA ≤ a.toNat
  · rw [if_pos ha]
    trivial
  rw [if_neg ha]
  refine ensures_seq (walkFrom_free a true 2 pt m) fun r m1 h => ?_
  cases r with
  | none => exact h
  | some p =>
    rw [ensures_bind, ensures_gets]
    by_cases hv : Has (m1.page p.1 p.2) PTE_V
    · rw [if_pos hv]
      trivial
    · rw [if_neg hv]
      exact h

/-! ## One round -/

theorem Grown.leaf_page (h : Grown m m' pt perm X P b k) (hbits : perm.toNat < 1024) (h1 : b ≤ v) (h2 : v < b + k) :
    ∃ pg ∈ span (leaf m' pt) b (b + k), pg ∈ m.free ∧ IsPage pg ∧ (∀ i, m'.page pg i = 0) ∧
      leaf m' pt v = some (PA2PTE pg ||| perm ||| PTE_V) := by
  obtain ⟨pg, hfree, hpage, hzero, hleaf⟩ := h.new v h1 h2
  refine ⟨pg, mem_sum.mpr ⟨v, Finset.mem_Ico.mpr ⟨h1, h2⟩, ?_⟩, hfree, hpage, hzero, hleaf⟩
  rw [hleaf, pageOf, Option.elim_some, PTE2PA_leaf hpage hbits]
  exact mem_singleton_self pg

/-- The new pages keep their zeros as long as they are not written. -/
theorem Grown.new_agree (h : Grown m m' pt perm X P b k) (hbits : perm.toNat < 1024)
    (hagree : Agree m' m1 (span (leaf m' pt) b (b + k))) (h1 : b ≤ v) (h2 : v < b + k) :
    ∃ pg ∈ m.free, IsPage pg ∧ (∀ i, m1.page pg i = 0) ∧ leaf m' pt v = some (PA2PTE pg ||| perm ||| PTE_V) := by
  obtain ⟨pg, hmem, hfree, hpage, hzero, hleaf⟩ := h.leaf_page hbits h1 h2
  refine ⟨pg, hfree, hpage, fun i => ?_, hleaf⟩
  rw [hagree pg hmem]
  exact hzero i

theorem Grown.take (h : Grown m m1 pt perm X 0 b k) (hbits : perm.toNat < 1024) :
    After kalloc (fun r m' => (r = none ∧ m' = m1) ∨ ∃ pg, r = some pg ∧ Grown m m' pt perm X {pg} b k ∧
      pg ∈ m.free ∧ IsPage pg ∧ ∀ i, m'.page pg i = 0) m1 := by
  have hT := h.tree
  rw [add_zero] at hT
  have hpool : Pool m1 (tabs m1 2 pt + (span (leaf m1 pt) b (b + k) + X)) := by
    refine ⟨?_, hT.good⟩
    convert hT.nodup using 1
    abel
  refine ensures_mono hpool.kalloc_after fun r m' hr => ?_
  obtain ⟨rfl, rfl⟩ | ⟨pg, rfl, hA⟩ := hr
  · exact .inl ⟨rfl, rfl⟩
  have htabs : Agree m1 m' (tabs m1 2 pt) := hA.agree.mono fun q hq => mem_add.mpr (.inl hq)
  have hdata : Agree m1 m' (span (leaf m1 pt) b (b + k) + X) :=
    hA.agree.mono fun q hq => mem_add.mpr (.inr hq)
  have hsame : Same m1 m' 2 pt := .of_agree htabs
  have hmem : ∀ q, q = pg ∨ q ∈ m'.free → q ∈ m1.free := by
    intro q hq
    rw [← mem_coe, hA.free, mem_cons]
    exact hq
  refine .inr ⟨pg, rfl, ⟨?_, ?_, fun v hv => ?_, fun v h1 h2 => ?_, fun q hq => h.free q (hmem q (.inr hq)), ?_⟩,
    h.free pg (hmem pg (.inl rfl)), hA.page, hA.zero⟩
  · refine ⟨hsame.shape hT.shape, ?_, hA.pool.good⟩
    rw [hsame.leaf, hsame.tabs]
    convert hA.pool.nodup using 1
    rw [← singleton_add]
    abel
  · rw [hsame.leaf, hsame.tabs, ← h.pages, hA.free, ← singleton_add]
    abel
  · rw [hsame.leaf]
    exact h.other v hv
  · rw [hsame.leaf]
    exact h.new_agree hbits (hdata.mono fun q hq => mem_add.mpr (.inl hq)) h1 h2
  · exact h.agree.trans (hdata.mono fun q hq => mem_add.mpr (.inr hq))

theorem Grown.map (h : Grown m m1 pt perm X {pg} b k) (hbits : perm.toNat < 1024)
    (hperm : Has perm (PTE_R ||| PTE_W ||| PTE_X)) (hfree : pg ∈ m.free) (hpage : IsPage pg)
    (hzero : ∀ i, m1.page pg i = 0) (ha : vpn a = b + k) :
    After (mapPage pt perm a pg) (fun ok m' =>
      (ok → Grown m m' pt perm X 0 b (k + 1)) ∧ (ok = false → Grown m m' pt perm X {pg} b k)) m1 := by
  refine ensures_mono (ensures_and (mapPage_after h.tree hperm) (mapPage_free ..)) fun ok m' hM => ?_
  obtain ⟨hM, hsub⟩ := hM
  have hT := hM.kept.tree h.tree
  have hdata : Agree m1 m' (span (leaf m1 pt) b (b + k)) :=
    hM.kept.agree.mono fun q hq => mem_add.mpr (.inl (mem_add.mpr (.inl hq)))
  have hhand : m'.page pg = m1.page pg :=
    hM.kept.agree pg (mem_add.mpr (.inl (mem_add.mpr (.inr (mem_singleton_self pg)))))
  have hX : Agree m m' X := h.agree.trans (hM.kept.agree.mono fun q hq => mem_add.mpr (.inr hq))
  have hfree' : ∀ q ∈ m'.free, q ∈ m.free := fun q hq => h.free q (hsub q hq)
  constructor
  · intro hok
    have hleaf := hM.done hok
    rw [ha] at hleaf
    have hspan : span (leaf m' pt) b (b + (k + 1)) = span (leaf m1 pt) b (b + k) + {pg} := by
      rw [← Nat.add_assoc, span_last (by omega), hleaf, update_self, pageOf, Option.elim_some,
        PTE2PA_leaf hpage hbits]
      congr 1
      refine span_congr fun u _ hu => update_of_ne (by omega) _ _
    refine ⟨?_, ?_, fun v hv => ?_, fun v h1 h2 => ?_, hfree', hX⟩
    · rw [hspan, add_zero]
      exact hT
    · rw [hspan, ← h.pages, add_right_comm (tabs m1 2 pt + span (leaf m1 pt) b (b + k)),
        add_right_comm (tabs m1 2 pt), ← hM.kept.pages]
      abel
    · rw [hleaf, update_of_ne (by omega)]
      exact h.other v (by omega)
    · rcases Nat.lt_or_ge v (b + k) with hlt | hge
      · rw [hleaf, update_of_ne (by omega)]
        exact h.new_agree hbits hdata h1 hlt
      · obtain rfl : v = b + k := by omega
        refine ⟨pg, hfree, hpage, fun i => ?_, ?_⟩
        · rw [hhand]
          exact hzero i
        · rw [hleaf, update_self]
  · intro hok
    have hleaf := hM.fail hok
    refine ⟨?_, ?_, fun v hv => ?_, fun v h1 h2 => ?_, hfree', hX⟩
    · rw [hleaf]
      exact hT
    · rw [hleaf, ← h.pages, add_right_comm (tabs m1 2 pt + span (leaf m1 pt) b (b + k)),
        add_right_comm (tabs m1 2 pt), ← hM.kept.pages]
      abel
    · rw [hleaf]
      exact h.other v hv
    · rw [hleaf]
      exact h.new_agree hbits hdata h1 h2

theorem Grown.give (h : Grown m m1 pt perm X {pg} b k) (hbits : perm.toNat < 1024) (hfree : pg ∈ m.free)
    (hpage : IsPage pg) : After (kfree pg) (fun _ m' => Grown m m' pt perm X 0 b k) m1 := by
  refine kfree_after fun _ => ?_
  have hT : Tree m1 2 pt (pg ::ₘ (span (leaf m1 pt) b (b + k) + X)) := by
    rw [← singleton_add, ← add_assoc, add_comm ({pg} : Multiset UInt64)]
    exact h.tree
  obtain ⟨hT', hsame, hagree⟩ := hT.free hpage
  refine ⟨?_, ?_, fun v hv => ?_, fun v h1 h2 => ?_, fun q hq => ?_, ?_⟩
  · rw [hsame.leaf, add_zero]
    exact hT'
  · rw [hsame.leaf, hsame.tabs, release_free, ← h.pages]
    abel
  · rw [hsame.leaf]
    exact h.other v hv
  · rw [hsame.leaf]
    exact h.new_agree hbits (hagree.mono fun q hq => mem_add.mpr (.inl hq)) h1 h2
  · rcases List.mem_cons.mp hq with rfl | hq
    · exact hfree
    · exact h.free q hq
  · exact h.agree.trans (hagree.mono fun q hq => mem_add.mpr (.inr hq))

/-! ## Going back -/

theorem Grown.remove {count : UInt64} (h : Grown m m1 pt perm X 0 b k)
    (hram : ∀ pg ∈ tabs m 2 pt + ↑m.free, Ram m1.kend pg)
    (hnone : ∀ v, b ≤ v → v < b + k → leaf m pt v = none) (hstart : start.toNat = 4096 * b) (hb : b < 2 ^ 27)
    (hk : b + k ≤ 2 ^ 27) (hcount : count.toNat = k) :
    Surely (uvmunmap pt start count true) (fun _ m' => m'.kend = m1.kend ∧ Kept m m' 2 pt X ∧
      leaf m' pt = leaf m pt ∧ (m'.free : Multiset UInt64) = span (leaf m1 pt) b (b + k) + ↑m1.free) m1 := by
  have hvpn : vpn start = b := by
    unfold vpn
    omega
  have hT := h.tree
  rw [add_zero] at hT
  have hT' : Tree m1 2 pt (span (leaf m1 pt) (vpn start) (vpn start + count.toNat) + X) := by
    rw [hvpn, hcount]
    exact hT
  have hsafe : Safe (uvmunmap pt start count true) m1 := by
    refine uvmunmap_safe hT' (by lia) (by lia) (by lia) fun q hq => hram q ?_
    rw [hvpn, hcount] at hq
    rw [← h.pages]
    simp only [mem_add]
    exact .inl (.inl (.inr hq))
  refine ensures_mono (ensures_and hsafe (uvmunmap_after hT')) fun _ m' hm' => ?_
  obtain ⟨hkend, hU, hleaf⟩ := hm'
  rw [hvpn, hcount] at hU hleaf
  refine ⟨hkend, ⟨hU.tree.shape, ?_, h.agree.trans hU.agree, hU.tree.good⟩, ?_, hU.free⟩
  · rw [hU.tabs, hU.free, ← h.pages]
    abel
  · funext v
    rw [hleaf, clear]
    by_cases hv : b ≤ v ∧ v < b + k
    · rw [if_pos hv, hnone v hv.1 hv.2]
    · rw [if_neg hv, h.other v hv]

theorem toNat_roundsTo {start a : UInt64} (hstart : start.toNat = 4096 * b) (ha : a.toNat = 4096 * (b + k)) :
    ((a - start) / 4096).toNat = k := by
  have hsize : (4096 : UInt64).toNat = 4096 := rfl
  have hlt := a.toNat_lt
  rw [UInt64.toNat_div, UInt64.toNat_sub, hsize]
  omega

/-- All pages are added, or the address space is as before. -/
theorem allocLoop_surely (h : Grown m m1 pt (PTE_R ||| PTE_U ||| xperm) X 0 b k) (hx : xperm.toNat < 1024)
    (hram : ∀ pg ∈ tabs m 2 pt + ↑m.free, Ram m.kend pg) (hkend : m1.kend = m.kend)
    (hstart : start.toNat = 4096 * b) (ha : a.toNat = 4096 * (b + k)) (hend : b + k + n ≤ 2 ^ 27)
    (hnone : ∀ v, b ≤ v → v < b + k + n → leaf m pt v = none) :
    Surely (allocLoop pt start newsz xperm n a) (fun r m' => m'.kend = m.kend ∧
      ((r = newsz ∧ Grown m m' pt (PTE_R ||| PTE_U ||| xperm) X 0 b (k + n)) ∨
        (r = 0 ∧ Kept m m' 2 pt X ∧ leaf m' pt = leaf m pt))) m1 := by
  have hbits : (PTE_R ||| PTE_U ||| xperm).toNat < 1024 := by
    rw [UInt64.toNat_or]
    exact Nat.or_lt_two_pow (n := 10) (by decide) hx
  have hperm : Has (PTE_R ||| PTE_U ||| xperm) (PTE_R ||| PTE_W ||| PTE_X) := or_has.mpr (.inl (by decide))
  induction n generalizing m1 a k with
  | zero => exact ⟨hkend, .inl ⟨rfl, h⟩⟩
  | succ n ih =>
    have hvpn : vpn a = b + k := by
      unfold vpn
      omega
    -- an allocation has failed in `m2`
    have hback : ∀ m2, Grown m m2 pt (PTE_R ||| PTE_U ||| xperm) X 0 b k → m2.kend = m.kend →
        Surely (uvmunmap pt start ((a - start) / 4096) true >>= fun _ => pure 0) (fun r m' => m'.kend = m.kend ∧
          ((r = newsz ∧ Grown m m' pt (PTE_R ||| PTE_U ||| xperm) X 0 b (k + (n + 1))) ∨
            (r = 0 ∧ Kept m m' 2 pt X ∧ leaf m' pt = leaf m pt))) m2 := by
      intro m2 hG hk2
      refine ensures_seq (hG.remove (fun q hq => ?_) (fun v h1 h2 => hnone v h1 (by omega)) hstart (by omega)
        (by omega) (toNat_roundsTo hstart ha)) fun _ m' hm' => ?_
      · rw [hk2]
        exact hram q hq
      · exact ⟨hm'.1.trans hk2, .inr ⟨rfl, hm'.2.1, hm'.2.2.1⟩⟩
    rw [allocLoop]
    refine ensures_seq (ensures_and (kalloc_safe m1) (h.take hbits)) fun r m2 hr => ?_
    obtain ⟨hk2, ⟨rfl, rfl⟩ | ⟨pg, rfl, hG, hfree, hpage, hzero⟩⟩ := hr
    · exact hback m2 h hkend
    have haligned : a.toNat % 4096 = 0 := by omega
    have hlt : a.toNat < MAXVA := by lia
    have hleaf : leaf m2 pt (vpn a) = none := by
      rw [hvpn, hG.other _ (by omega)]
      exact hnone _ (by omega) (by omega)
    dsimp only
    rw [mappages_page haligned]
    have hsafe : Safe (mapPage pt (PTE_R ||| PTE_U ||| xperm) a pg) m2 := mapPage_safe hG.tree hlt hleaf
    refine ensures_seq (ensures_and hsafe (hG.map hbits hperm hfree hpage hzero hvpn)) fun ok m3 hM => ?_
    obtain ⟨hk3, hdone, hfail⟩ := hM
    have hk3 : m3.kend = m.kend := (hk3.trans hk2).trans hkend
    cases ok with
    | true =>
      have hnext : (a + 4096).toNat = 4096 * (b + (k + 1)) := by
        have hsize : (4096 : UInt64).toNat = 4096 := rfl
        rw [UInt64.toNat_add, hsize]
        omega
      have hrest := ih (hdone rfl) hk3 hnext (by omega) fun v h1 h2 => hnone v h1 (by omega)
      rw [Nat.add_assoc, Nat.add_comm 1 n] at hrest
      exact hrest
    | false =>
      have hG3 := hfail rfl
      have hgive : Safe (kfree pg) m3 := by
        refine kfree_safe ?_
        rw [hk3]
        exact hram pg (mem_add.mpr (.inr (mem_coe.mpr hfree)))
      refine ensures_seq (ensures_and hgive (hG3.give hbits hfree hpage)) fun _ m4 h4 => ?_
      exact hback m4 h4.2 (h4.1.trans hk3)

/-! ## Whole calls -/

/-- The pages from the old size up to the new one are added, each on a page of its own that was free and holds zeros. -/
structure Added (m m' : Mem) (pt oldsz newsz xperm : UInt64) (X : Multiset UInt64) : Prop where
  other : ∀ v, ¬ (npages oldsz ≤ v ∧ v < npages newsz) → translation m' pt v = translation m pt v
  new : ∀ v, npages oldsz ≤ v → v < npages newsz → ∃ pg ∈ m.free, (∀ i, m'.page pg i = 0) ∧ pg ∉ m'.free ∧
    translation m' pt v = some (pg, PTE_R ||| PTE_U ||| xperm ||| PTE_V)
  distinct : ∀ v w e f, npages oldsz ≤ v → v < w → w < npages newsz → translation m' pt v = some e →
    translation m' pt w = some f → e.1 ≠ f.1
  agree : Agree m m' X

theorem Grown.added (h : Grown m m' pt (PTE_R ||| PTE_U ||| xperm) X 0 (npages oldsz) k) (hx : xperm.toNat < 1024)
    (hk : npages oldsz + k = npages newsz) : Added m m' pt oldsz newsz xperm X := by
  have hbits : (PTE_R ||| PTE_U ||| xperm).toNat < 1024 := by
    rw [UInt64.toNat_or]
    exact Nat.or_lt_two_pow (n := 10) (by decide) hx
  have hnodup := (nodup_add.mp h.tree.nodup)
  refine ⟨fun v hv => ?_, fun v h1 h2 => ?_, ?_, h.agree⟩
  · rw [translation, h.other v (by omega)]
    rfl
  · obtain ⟨pg, hmem, hfree, hpage, hzero, hleaf⟩ := h.leaf_page hbits h1 (by omega)
    refine ⟨pg, hfree, hzero, fun hstill => ?_, ?_⟩
    · refine disjoint_left.mp hnodup.2.2 (mem_add.mpr (.inr hstill)) ?_
      exact mem_add.mpr (.inl (mem_add.mpr (.inl hmem)))
    · rw [translation, hleaf, Option.map_some, PTE2PA_leaf hpage hbits, or_assoc_entry,
        PTE_FLAGS_PA2PTE (or_PTE_V_lt hbits)]
  · intro v w e f h1 h2 h3 hv hw heq
    -- the page would be twice among the new pages
    obtain ⟨e', he', rfl⟩ := Option.map_eq_some_iff.mp hv
    obtain ⟨f', hf', rfl⟩ := Option.map_eq_some_iff.mp hw
    have hspan : (span (leaf m' pt) (npages oldsz) (npages oldsz + k)).Nodup :=
      (nodup_add.mp (nodup_add.mp hnodup.2.1).1).1
    have hvw : v = w := span_inj hspan (Finset.mem_Ico.mpr ⟨by omega, by omega⟩) (Finset.mem_Ico.mpr ⟨h1, by omega⟩)
      hf' he' heq
    omega

theorem toNat_PGROUNDUP_pages {sz : UInt64} (h : sz.toNat < MAXVA) : (PGROUNDUP sz).toNat = 4096 * npages sz := by
  rw [toNat_PGROUNDUP (by lia), npages, Nat.mul_comm]

theorem Grown.dealloc (h : Grown m m1 pt perm X 0 (npages oldsz) k)
    (hram : ∀ pg ∈ tabs m 2 pt + ↑m.free, Ram m1.kend pg) (hle : oldsz ≤ newsz) (hlt : newsz.toNat < MAXVA) (hk : npages oldsz + k = npages newsz)
    (hnone : ∀ v, npages oldsz ≤ v → v < npages newsz → leaf m pt v = none) :
    Surely (uvmdealloc pt newsz oldsz) (fun r m' => r = oldsz ∧ Kept m m' 2 pt X ∧ leaf m' pt = leaf m pt ∧
      (m'.free : Multiset UInt64) = span (leaf m1 pt) (npages oldsz) (npages newsz) + ↑m1.free) m1 := by
  have hle' := UInt64.le_iff_toNat_le.mp hle
  have hold := toNat_PGROUNDUP_pages (show oldsz.toNat < MAXVA by lia)
  have hnew := toNat_PGROUNDUP_pages hlt
  -- without a page to remove the address space is the old one
  have hsame : k = 0 → Kept m m1 2 pt X ∧ leaf m1 pt = leaf m pt ∧
      (m1.free : Multiset UInt64) = span (leaf m1 pt) (npages oldsz) (npages newsz) + ↑m1.free := by
    rintro rfl
    have hT := h.tree
    have hpages := h.pages
    rw [Nat.add_zero, span_self, add_zero] at hT hpages
    rw [add_zero] at hpages
    rw [zero_add] at hT
    rw [Nat.add_zero] at hk
    refine ⟨⟨hT.shape, hpages, h.agree, hT.good⟩, funext fun v => h.other v (by omega), ?_⟩
    rw [← hk, span_self, zero_add]
  rw [uvmdealloc]
  by_cases heq : newsz ≤ oldsz
  · rw [if_pos heq]
    obtain rfl : newsz = oldsz := UInt64.le_antisymm heq hle
    exact ⟨rfl, hsame (by omega)⟩
  rw [if_neg heq]
  by_cases hpages : PGROUNDUP oldsz < PGROUNDUP newsz
  · have hlt' := UInt64.lt_iff_toNat_lt.mp hpages
    rw [if_pos hpages]
    have hb : npages newsz ≤ 2 ^ 27 := by
      unfold npages
      lia
    have hcount : (PGROUNDUP newsz).toNat = 4096 * (npages oldsz + k) := by rw [hk, hnew]
    refine ensures_seq (h.remove hram (fun v h1 h2 => hnone v h1 (by omega)) hold (by omega) (by omega)
      (toNat_roundsTo hold hcount)) fun _ m' hm' => ?_
    refine ⟨rfl, hm'.2.1, hm'.2.2.1, ?_⟩
    rw [← hk]
    exact hm'.2.2.2
  · have hge := UInt64.le_iff_toNat_le.mp (UInt64.not_lt.mp hpages)
    rw [if_neg hpages]
    exact ⟨rfl, hsame (by omega)⟩

theorem uvmalloc_surely (hs : Sound m pt X) (hx : xperm.toNat < 1024) (hle : oldsz ≤ newsz) (hlt : newsz.toNat < MAXVA)
    (hnone : ∀ v, npages oldsz ≤ v → v < npages newsz → leaf m pt v = none) :
    Surely (uvmalloc pt oldsz newsz xperm) (fun r m' => m'.kend = m.kend ∧
      ((r = newsz ∧ Grown m m' pt (PTE_R ||| PTE_U ||| xperm) X 0 (npages oldsz) (npages newsz - npages oldsz)) ∨
        (r = 0 ∧ Kept m m' 2 pt X ∧ leaf m' pt = leaf m pt))) m := by
  have hle' := UInt64.le_iff_toNat_le.mp hle
  have hold := toNat_PGROUNDUP_pages (show oldsz.toNat < MAXVA by lia)
  have hk : pagesTo (PGROUNDUP oldsz) newsz = npages newsz - npages oldsz := by
    unfold pagesTo
    rw [hold]
    unfold npages
    lia
  have hend : npages newsz ≤ 2 ^ 27 := by
    unfold npages
    lia
  have hpages : npages oldsz ≤ npages newsz := by
    unfold npages
    omega
  have hram : ∀ pg ∈ tabs m 2 pt + ↑m.free, Ram m.kend pg := fun pg hpg => hs.ram pg (mem_add.mpr (.inl hpg))
  have hcond : ¬ (newsz < oldsz ∨ MAXVA ≤ newsz.toNat) := by
    rintro (hlow | hhigh)
    · exact absurd hlow (UInt64.not_lt.mpr hle)
    · omega
  have hloop := @allocLoop_surely m m pt (PGROUNDUP oldsz) (PGROUNDUP oldsz) newsz xperm (npages oldsz) 0
    (npages newsz - npages oldsz) X (hs.tree.grown _ _) hx hram rfl hold hold (by omega)
    fun v h1 h2 => hnone v h1 (by omega)
  rw [Nat.zero_add] at hloop
  rw [uvmalloc, if_neg hcond]
  dsimp only
  rw [hk]
  exact hloop

/-- `uvmalloc` either returns the new size with the pages up to it added, and `uvmdealloc` undoes that, or it returns
0 and the translations are as before; the pages that it took are free again or tables. -/
theorem uvmalloc_all_or_nothing (hs : Sound m pt X) (hx : xperm.toNat < 1024) (hle : oldsz ≤ newsz)
    (hlt : newsz.toNat < MAXVA)
    (hnone : ∀ v, npages oldsz ≤ v → v < npages newsz → translation m pt v = none) :
    ∃ r m', (uvmalloc pt oldsz newsz xperm).run m = .done r m' ∧ ((r = newsz ∧ Added m m' pt oldsz newsz xperm X ∧
        ∃ m'', (uvmdealloc pt newsz oldsz).run m' = .done oldsz m'' ∧ translation m'' pt = translation m pt ∧
          (m''.free : Multiset UInt64) = span (leaf m' pt) (npages oldsz) (npages newsz) + ↑m'.free ∧
          tabs m'' 2 pt + ↑m''.free = tabs m 2 pt + ↑m.free) ∨
      (r = 0 ∧ translation m' pt = translation m pt ∧ tabs m' 2 pt + ↑m'.free = tabs m 2 pt + ↑m.free ∧
        Agree m m' X)) := by
  have hle' := UInt64.le_iff_toNat_le.mp hle
  have hk : npages oldsz + (npages newsz - npages oldsz) = npages newsz := by
    unfold npages
    omega
  have hleaf : ∀ v, npages oldsz ≤ v → v < npages newsz → leaf m pt v = none :=
    fun v h1 h2 => translation_eq_none.mp (hnone v h1 h2)
  obtain ⟨r, m', hrun, hkend, hr⟩ := exists_done_of_ensures (uvmalloc_surely hs hx hle hlt hleaf)
  refine ⟨r, m', hrun, ?_⟩
  obtain ⟨rfl, hG⟩ | ⟨rfl, hK, hback⟩ := hr
  · refine .inl ⟨rfl, hG.added hx hk, ?_⟩
    have hram : ∀ pg ∈ tabs m 2 pt + ↑m.free, Ram m'.kend pg := by
      intro pg hpg
      rw [hkend]
      exact hs.ram pg (mem_add.mpr (.inl hpg))
    obtain ⟨r', m'', hrun', rfl, hK, hback, hfree⟩ := exists_done_of_ensures (hG.dealloc hram hle hlt hk hleaf)
    refine ⟨m'', hrun', ?_, hfree, hK.pages⟩
    rw [translation_eq, hback]
    rfl
  · refine .inr ⟨rfl, ?_, hK.pages, hK.agree⟩
    rw [translation_eq, hback]
    rfl

theorem uvmalloc_all_or_nothing_small : ∃ m, uvmcreate.run smallRam = .done (some 0x80200000) m ∧
    ∃ r m', (uvmalloc 0x80200000 0 5000 PTE_W).run m = .done r m' ∧
      ((r = 5000 ∧ Added m m' 0x80200000 0 5000 PTE_W 0 ∧
        ∃ m'', (uvmdealloc 0x80200000 5000 0).run m' = .done 0 m'' ∧
          translation m'' 0x80200000 = translation m 0x80200000 ∧
          (m''.free : Multiset UInt64) = span (leaf m' 0x80200000) (npages 0) (npages 5000) + ↑m'.free ∧
          tabs m'' 2 0x80200000 + ↑m''.free = tabs m 2 0x80200000 + ↑m.free) ∨
      (r = 0 ∧ translation m' 0x80200000 = translation m 0x80200000 ∧
        tabs m' 2 0x80200000 + ↑m'.free = tabs m 2 0x80200000 + ↑m.free ∧ Agree m m' 0)) := by
  refine ⟨_, rfl, uvmalloc_all_or_nothing (ready_smallRam.create rfl) (by decide) (by decide) (by decide) ?_⟩
  intro v _ hv
  have hpages : npages 5000 = 2 := by decide
  have hcases : v = 0 ∨ v = 1 := by omega
  rcases hcases with rfl | rfl
  · rfl
  · rfl

end Xv6.Vm
