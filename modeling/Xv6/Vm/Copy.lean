import Xv6.Vm.User

/-!
# What `uvmcopy` copies

A copy of an address space has a leaf where the original has one, with the same flags, and the page behind
it holds the same words. While the copy grows, nothing is written to the pages in use: neither to those of the
original nor to those of the copy that are done.
-/

namespace Xv6.Vm

open Coop Prog Data Function Multiset

/-- `e'` in the memory `m'` is a copy of the leaf `e` in the memory `m`. -/
def CopyLeaf (m m' : Mem) : Option UInt64 → Option UInt64 → Prop :=
  Option.Rel fun e e' => PTE_FLAGS e' = PTE_FLAGS e ∧ m'.page (PTE2PA e') = m.page (PTE2PA e)

/-- The tables of the address space `old` and its first `n` pages are among `Y`. -/
structure Source (m : Mem) (old : UInt64) (n : Nat) (Y : Multiset UInt64) : Prop where
  tabs : Vm.tabs m 2 old ⊆ Y
  pages : ∀ v e, v < n → leaf m old v = some e → PTE2PA e ∈ Y

variable {m m' : Mem} {pt pg old i : UInt64} {n k : Nat} {Y Z : Multiset UInt64}

theorem Source.mono (h : Source m old n Y) (hZ : Y ⊆ Z) : Source m old n Z :=
  ⟨fun _ hq => hZ (h.tabs hq), fun v e hv he => hZ (h.pages v e hv he)⟩

theorem Source.leaf (h : Source m old n Y) (hagree : Agree m m' Y) : leaf m' old = leaf m old :=
  (Same.of_agree (hagree.mono h.tabs)).leaf

theorem Source.agree (h : Source m old n Y) (hagree : Agree m m' Y) : Source m' old n Y := by
  have hsame : Same m m' 2 old := .of_agree (hagree.mono h.tabs)
  refine ⟨?_, ?_⟩
  · rw [hsame.tabs]
    exact h.tabs
  · rw [hsame.leaf]
    exact h.pages

theorem Source.copyLeaf {m1 : Mem} {e : Option UInt64} {v : Nat} (h : Source m old n Y) (hagree : Agree m m1 Y)
    (hv : v < n) (hcopy : CopyLeaf m1 m' (Vm.leaf m1 old v) e) : CopyLeaf m m' (Vm.leaf m old v) e := by
  rw [h.leaf hagree] at hcopy
  cases hl : Vm.leaf m old v with
  | none =>
    rw [hl] at hcopy
    cases hcopy
    exact .none
  | some a =>
    rw [hl] at hcopy
    cases hcopy with
    | some hc =>
      rw [hagree _ (h.pages v a hv hl)] at hc
      exact .some hc

/-- Another page than that of the copy is written to. -/
theorem CopyLeaf.write {e e' : Option UInt64} {w : Fin 512 → UInt64} (h : CopyLeaf m m' e e')
    (hne : ∀ a, e' = some a → PTE2PA a ≠ pg) :
    CopyLeaf m { m' with page := update m'.page pg w } e e' := by
  cases h with
  | none => exact .none
  | some hc =>
    refine .some ⟨hc.1, ?_⟩
    show update m'.page pg w _ = _
    rw [update_of_ne (hne _ rfl)]
    exact hc.2

/-- The flags of a valid entry are those of its copy. -/
theorem PTE_FLAGS_copy {e : UInt64} (hv : Has e PTE_V) :
    PTE_FLAGS (PA2PTE pg ||| PTE_FLAGS e ||| PTE_V) = PTE_FLAGS e := by
  have hlt : (PTE_FLAGS e).toNat < 1024 := by
    rw [toNat_PTE_FLAGS]
    omega
  have hor : PTE_FLAGS e ||| PTE_V = PTE_FLAGS e := by
    have hbit : e.toNat % 2 = 1 := by
      have hone : (e &&& 1).toNat = e.toNat % 2 := by
        exact Nat.and_one_is_mod e.toNat
      have hne : e &&& 1 ≠ 0 := hv
      by_contra hzero
      refine hne (UInt64.toNat_inj.mp ?_)
      rw [hone]
      show e.toNat % 2 = 0
      omega
    refine UInt64.toNat_inj.mp ?_
    rw [UInt64.toNat_or, toNat_PTE_FLAGS]
    refine Nat.eq_of_testBit_eq fun j => ?_
    have hone : PTE_V.toNat = 1 := rfl
    rw [Nat.testBit_or, hone]
    cases j with
    | zero => simp [Nat.testBit_zero]; omega
    | succ j => simp [Nat.testBit_succ]
  rw [UInt64.or_assoc, hor, PTE_FLAGS_PA2PTE hlt]

theorem after_any {α : Type} (z : Prog Mem α) (m : Mem) : After z (fun _ _ => True) m :=
  ensures_of_forall (fun _ _ => trivial) z m

/-- A page is taken from the free list; the tables are not written to. -/
theorem Tree.kalloc_after (hT : Tree m 2 pt Y) :
    After kalloc (fun r m' => (r = none ∧ m' = m) ∨ ∃ pg, r = some pg ∧ IsPage pg ∧
      Tree m' 2 pt (pg ::ₘ Y) ∧ leaf m' pt = leaf m pt ∧ Agree m m' Y) m := by
  have hpool : Pool m (tabs m 2 pt + Y) := by
    refine ⟨?_, hT.good⟩
    convert hT.nodup using 1
    abel
  refine ensures_mono hpool.kalloc_after fun r m' hr => ?_
  rcases hr with hr | ⟨pg, hpg, hA⟩
  · exact .inl hr
  · have hsame : Same m m' 2 pt := .of_agree (hA.agree.mono fun q hq => mem_add.mpr (.inl hq))
    refine .inr ⟨pg, hpg, hA.page, ⟨hsame.shape hT.shape, ?_, hA.pool.good⟩, hsame.leaf,
      hA.agree.mono fun q hq => mem_add.mpr (.inr hq)⟩
    rw [hsame.tabs]
    convert hA.pool.nodup using 1
    simp only [← singleton_add]
    abel

theorem Tree.copyPage (hT : Tree m 2 pt (pg ::ₘ Y)) (src : UInt64) :
    Tree (m.copyPage pg src) 2 pt (pg ::ₘ Y) ∧ leaf (m.copyPage pg src) pt = leaf m pt ∧
      Agree m (m.copyPage pg src) Y := by
  have hnd := hT.nodup
  rw [add_cons] at hnd
  have hnot := (nodup_cons.mp hnd).1
  simp only [mem_add, not_or] at hnot
  have hsame : Same m (m.copyPage pg src) 2 pt := .of_agree (.write hnot.1.1 _)
  refine ⟨⟨hsame.shape hT.shape, ?_, hT.good⟩, hsame.leaf, .write hnot.2 _⟩
  rw [hsame.tabs]
  exact hT.nodup

/-- The loop of `uvmcopy` copies the pages from `i` on, if it does not fail. -/
theorem copyLoop_copies (hT : Tree m 2 pt Y) (hsrc : Source m old (vpn i + k) Y)
    (hfresh : ∀ v, vpn i ≤ v → v < vpn i + k → leaf m pt v = none) (hi : i.toNat % 4096 = 0)
    (hroom : vpn i + k ≤ frameVpn) :
    After (copyLoop old pt k i) (fun r m' => r → Agree m m' Y ∧
      (∀ v, v < vpn i → leaf m' pt v = leaf m pt v) ∧
      ∀ v, vpn i ≤ v → v < vpn i + k → CopyLeaf m m' (leaf m old v) (leaf m' pt v)) m := by
  induction k generalizing m i Y with
  | zero => exact fun _ => ⟨.refl m Y, fun _ _ => rfl, fun v hv hlt => absurd hlt (by omega)⟩
  | succ k ih =>
    obtain ⟨hnext, haligned⟩ := vpn_succ hi (by omega)
    -- the page at `i` is done in `m1`; the rest of the loop follows
    have hgo : ∀ m1 Z, Y ⊆ Z → Tree m1 2 pt Z → Agree m m1 Y →
        (∀ v, v ≠ vpn i → leaf m1 pt v = leaf m pt v) →
        (∀ m', Agree m1 m' Z → CopyLeaf m m' (leaf m old (vpn i)) (leaf m1 pt (vpn i))) →
        After (copyLoop old pt k (i + 4096)) (fun r m' => r = true → Agree m m' Y ∧
          (∀ v, v < vpn i → leaf m' pt v = leaf m pt v) ∧
          ∀ v, vpn i ≤ v → v < vpn i + (k + 1) → CopyLeaf m m' (leaf m old v) (leaf m' pt v)) m1 := by
      intro m1 Z hYZ hT1 hagree hsame hdone
      have hsrc1 : Source m1 old (vpn (i + 4096) + k) Z := by
        have hs := (hsrc.agree hagree).mono hYZ
        rwa [hnext, Nat.add_assoc, Nat.add_comm 1 k]
      have hrest := ih hT1 hsrc1 (fun v hv hlt => ?_) haligned (by omega)
      · refine ensures_mono hrest fun r m' h' hr => ?_
        obtain ⟨hagree', hlow, hcopy⟩ := h' hr
        refine ⟨hagree.trans (hagree'.mono hYZ), fun v hv => ?_, fun v hv hlt => ?_⟩
        · rw [hlow v (by omega), hsame v (by omega)]
        · by_cases heq : v = vpn i
          · rw [heq, hlow (vpn i) (by omega)]
            exact hdone m' hagree'
          · exact hsrc.copyLeaf hagree hlt (hcopy v (by omega) (by omega))
      · rw [hsame v (by omega)]
        exact hfresh v (by omega) (by omega)
    have hskip : leaf m old (vpn i) = none → ∀ m', Agree m m' Y →
        CopyLeaf m m' (leaf m old (vpn i)) (leaf m pt (vpn i)) := by
      intro hnone m' _
      rw [hnone, hfresh (vpn i) (Nat.le_refl _) (by omega)]
      exact .none
    rw [copyLoop, walk]
    by_cases hmax : MAXVA ≤ i.toNat
    · rw [if_pos hmax]
      trivial
    rw [if_neg hmax]
    have hleaf : leaf m old (vpn i) = lookup m i 2 old := leaf_vpn (Nat.lt_of_not_le hmax)
    refine ensures_seq (walkFrom_find i 2 old m) fun r m1 hfound => ?_
    obtain ⟨rfl, rfl⟩ := hfound
    cases hfind : find m1 i 2 old with
    | none =>
      rw [lookup, hfind] at hleaf
      exact hgo m1 Y (fun _ hq => hq) hT (.refl m1 Y) (fun _ _ => rfl) (hskip hleaf)
    | some p =>
      obtain ⟨t, j⟩ := p
      rw [lookup, hfind, Option.bind_some] at hleaf
      rw [ensures_bind, ensures_gets]
      by_cases hv : Has (m1.page t j) PTE_V
      · rw [if_pos hv] at hleaf
        rw [if_neg (not_not.mpr hv)]
        by_cases hrwx : Has (m1.page t j) (PTE_R ||| PTE_W ||| PTE_X)
        · rw [if_neg (not_not.mpr hrwx)]
          refine ensures_seq hT.kalloc_after fun r m2 hr => ?_
          rcases hr with ⟨rfl, rfl⟩ | ⟨mem, rfl, hpage, hT2, hleaf2, hagree2⟩
          · exact ensures_seq (after_any _ _) fun _ _ _ h => by cases h
          · rw [ensures_bind, ensures_modify, mappages_page hi]
            obtain ⟨hT3, hleaf3, hagree3⟩ := hT2.copyPage (PTE2PA (m1.page t j))
            have hflags : Has (PTE_FLAGS (m1.page t j)) (PTE_R ||| PTE_W ||| PTE_X) := by
              rw [Has, ← and_flag (by decide)]
              exact hrwx
            have hperm : (PTE_FLAGS (m1.page t j)).toNat < 1024 := by
              rw [toNat_PTE_FLAGS]
              omega
            refine ensures_seq (mapPage_after hT3 hflags) fun ok m4 hM => ?_
            cases ok with
            | false =>
              refine ensures_seq (after_any _ _) fun _ m5 _ => ?_
              exact ensures_seq (after_any _ _) fun _ _ _ h => by cases h
            | true =>
              have hdone := hM.done rfl
              rw [hleaf3, hleaf2] at hdone
              have hagree : Agree m1 m4 Y :=
                (hagree2.trans hagree3).trans (hM.kept.agree.mono fun q hq => mem_cons_of_mem hq)
              refine hgo m4 (mem ::ₘ Y) (fun _ hq => mem_cons_of_mem hq) (hM.kept.tree hT3) hagree
                (fun v hv => by rw [hdone, update_of_ne hv]) fun m' h' => ?_
              -- the new page still holds what has been copied to it
              have hmem : m'.page mem = m1.page (PTE2PA (m1.page t j)) := by
                rw [h' mem (mem_cons_self mem Y), hM.kept.agree mem (mem_cons_self mem Y),
                  ← hagree2 _ (hsrc.pages (vpn i) _ (by omega) hleaf)]
                simp [Mem.copyPage]
              rw [hleaf, hdone, update_self]
              refine .some ⟨PTE_FLAGS_copy hv, ?_⟩
              rw [PTE2PA_leaf hpage hperm, hmem]
        · rw [if_pos hrwx]
          trivial
      · rw [if_neg hv] at hleaf
        rw [if_pos hv]
        exact hgo m1 Y (fun _ hq => hq) hT (.refl m1 Y) (fun _ _ => rfl) (hskip hleaf)

theorem uvmcopy_copies {sz : UInt64} (hT : Tree m 2 pt Y) (hsrc : Source m old (npages sz) Y)
    (hfresh : ∀ v, v < npages sz → leaf m pt v = none) (hsz : npages sz ≤ frameVpn) :
    After (uvmcopy old pt sz) (fun r m' => r → Agree m m' Y ∧
      ∀ v, v < npages sz → CopyLeaf m m' (leaf m old v) (leaf m' pt v)) m := by
  have hpages : vpn 0 + pagesTo 0 sz = npages sz := by
    show 0 / 4096 + (sz.toNat - 0 + 4095) / 4096 = (sz.toNat + 4095) / 4096
    omega
  have hcopy := @copyLoop_copies m pt old 0 (pagesTo 0 sz) Y hT (by rwa [hpages])
    (fun v _ hv => hfresh v (hpages ▸ hv)) (by decide) (hpages ▸ hsz)
  refine ensures_mono hcopy fun r m' h hr => ?_
  obtain ⟨hagree, -, hleaf⟩ := h hr
  exact ⟨hagree, fun v hv => hleaf v (Nat.zero_le v) (by rwa [hpages])⟩

end Xv6.Vm
