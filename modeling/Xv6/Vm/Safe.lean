import Xv6.Vm.Copy

/-!
# Page tables without panics

`After` allows a program to panic. Here are the conditions under which the functions on page tables do return:
a page is mapped only where none is, the tables are well formed, a table that is freed has no leaves, and what is
given to `kfree` is a page behind the end of the kernel.
-/

namespace Xv6.Vm

open Coop Prog Data Multiset

/-- The program returns, with the postcondition. -/
abbrev Surely {α : Type} (x : Prog Mem α) (Q : α → Mem → Prop) (m : Mem) : Prop :=
  x.ensures (fun _ => True) (fun _ _ => False) Q m

/-- The program returns, and the end of the kernel is still known. -/
abbrev Safe {α : Type} (x : Prog Mem α) (m : Mem) : Prop := Surely x (fun _ m' => m'.kend = m.kend) m

/-- A page that `kfree` accepts. -/
def Ram (kend pg : UInt64) : Prop := pg.toNat % PGSIZE = 0 ∧ kend ≤ pg ∧ pg.toNat < PHYSTOP

variable {α β : Type} {m m' : Mem} {pt pg old va a t perm pa : UInt64} {i j : Fin 512} {n k l : Nat}
  {F : Nat → Option UInt64} {X Y : Multiset UInt64}

/-- A program goes on after one that returns, from a state that is known by its postcondition. -/
theorem Safe.seq {x : Prog Mem α} {h : α → Prog Mem β} {R : α → Mem → Prop} (hx : Safe x m) (hR : After x R m)
    (hh : ∀ a m', R a m' → m'.kend = m.kend → Safe (h a) m') : Safe (x >>= h) m := by
  refine ensures_seq (ensures_and hx hR) fun a m' hm => ?_
  exact ensures_mono (hh a m' hm.2 hm.1) fun _ m'' hk => hk.trans hm.1

/-! ## The allocator and walks -/

theorem kalloc_safe (m : Mem) : Safe kalloc m := by
  refine (ensures_step _ _ _).mpr ?_
  cases hfree : m.free with
  | nil => rfl
  | cons pg rest => rfl

theorem kfree_safe (h : Ram m.kend pg) : Safe (kfree pg) m := by
  refine (ensures_step _ _ _).mpr ?_
  rw [if_neg]
  · rfl
  · rintro (haligned | hlow | hhigh)
    · exact haligned h.1
    · exact absurd hlow (UInt64.not_lt.mpr h.2.1)
    · exact absurd h.2.2 (Nat.not_lt.mpr hhigh)

theorem walkFrom_safe (va : UInt64) (alloc : Bool) (l : Nat) (pt : UInt64) (m : Mem) :
    Safe (walkFrom va alloc l pt) m := by
  induction l generalizing pt m with
  | zero => rfl
  | succ l ih =>
    rw [walkFrom, Safe, Surely, ensures_bind, ensures_gets]
    by_cases hv : Has (m.page pt (PX (l + 1) va)) PTE_V
    · rw [if_pos hv]
      exact ih _ _
    · rw [if_neg hv]
      cases alloc with
      | false => rfl
      | true =>
        rw [if_pos rfl]
        refine (kalloc_safe m).seq (after_any _ _) fun r m1 _ _ => ?_
        cases r with
        | none => rfl
        | some pg =>
          dsimp only
          rw [Safe, Surely, ensures_bind, ensures_modify, ensures_bind, ensures_modify]
          exact ih pg ((m1.fill pg 0).setWord pt (PX (l + 1) va) (PA2PTE pg ||| PTE_V))

/-- A walk that finds all its tables allocates nothing. -/
theorem walkFrom_found {p : UInt64 × Fin 512} (h : find m va l pt = some p) :
    After (walkFrom va true l pt) (fun r m' => r = some p ∧ m' = m) m := by
  induction l generalizing pt with
  | zero => exact ⟨h, rfl⟩
  | succ l ih =>
    obtain ⟨c, hc, hf⟩ := Option.bind_eq_some_iff.mp h
    rw [walkFrom, After, ensures_bind, ensures_gets]
    unfold child at hc
    by_cases hv : Has (m.page pt (PX (l + 1) va)) PTE_V
    · rw [if_pos hv] at hc ⊢
      rw [Option.some.inj hc]
      exact ih hf
    · cases (if_neg hv).symm.trans hc

/-- A walk takes at most one page for each level. -/
theorem walkFrom_enough (h : l ≤ m.free.length) : After (walkFrom va true l pt) (fun r _ => r ≠ none) m := by
  induction l generalizing pt m with
  | zero => exact nofun
  | succ l ih =>
    rw [walkFrom, After, ensures_bind, ensures_gets]
    by_cases hv : Has (m.page pt (PX (l + 1) va)) PTE_V
    · rw [if_pos hv]
      exact ih (by omega)
    · rw [if_neg hv, if_pos rfl, ensures_bind]
      refine kalloc_after ?_ ?_
      · intro hfree
        rw [hfree] at h
        exact absurd h (by simp)
      · intro pg rest hfree
        simp only [ensures_bind, ensures_modify]
        refine ih ?_
        show l ≤ rest.length
        rw [hfree, List.length_cons] at h
        omega

/-- The entries that a walk finds in a well-formed table are leaves. -/
theorem Shape.rwx (hs : Shape m l pt) (hf : find m va l pt = some (t, j)) (hv : Has (m.page t j) PTE_V) :
    Has (m.page t j) (PTE_R ||| PTE_W ||| PTE_X) := by
  induction l generalizing pt with
  | zero =>
    cases hf
    exact hs _ hv
  | succ l ih =>
    obtain ⟨c, hc, hf⟩ := Option.bind_eq_some_iff.mp hf
    unfold child at hc
    by_cases hvalid : Has (m.page pt (PX (l + 1) va)) PTE_V
    · rw [if_pos hvalid] at hc
      obtain ⟨c', hpage, he, hs'⟩ := hs _ hvalid
      obtain rfl : c' = c := by rw [← Option.some.inj hc, he, PTE2PA_PA2PTE hpage (by decide)]
      exact ih hs' hf
    · cases (if_neg hvalid).symm.trans hc

/-- A walk that ends passes one table of each level. -/
theorem card_of_find {p : UInt64 × Fin 512} (h : find m va l pt = some p) : l + 1 ≤ (tabs m l pt).card := by
  induction l generalizing pt with
  | zero => exact Nat.le_of_eq (card_singleton pt).symm
  | succ l ih =>
    obtain ⟨c, hc, hf⟩ := Option.bind_eq_some_iff.mp h
    rw [tabs_succ m l pt (PX (l + 1) va), below_of_child hc, card_cons, card_add]
    have := ih hf
    omega

/-! ## Mapping -/

theorem mapPage_safe (hT : Tree m 2 pt X) (ha : a.toNat < MAXVA)
    (hnone : leaf m pt (vpn a) = none) : Safe (mapPage pt perm a pa) m := by
  rw [mapPage, walk, if_neg (Nat.not_le.mpr ha)]
  refine (walkFrom_safe a true 2 pt m).seq (walkFrom_after a hT) fun r m1 hW _ => ?_
  cases r with
  | none => rfl
  | some p =>
    have hfind := hW.find p rfl
    have hinv : ¬ Has (m1.page p.1 p.2) PTE_V := by
      intro hv
      rw [leaf_vpn ha, ← hW.lookup, lookup, hfind, Option.bind_some, if_pos hv] at hnone
      cases hnone
    rw [Safe, Surely, ensures_bind, ensures_gets, if_neg hinv]
    rfl

theorem mapPage_enough (h : 2 ≤ m.free.length) : After (mapPage pt perm a pa) (fun ok _ => ok) m := by
  rw [mapPage, walk]
  by_cases ha : MAXVA ≤ a.toNat
  · rw [if_pos ha]
    trivial
  rw [if_neg ha]
  refine ensures_seq (walkFrom_enough h) fun r m1 hr => ?_
  cases r with
  | none => exact absurd rfl hr
  | some p =>
    rw [ensures_bind, ensures_gets]
    by_cases hv : Has (m1.page p.1 p.2) PTE_V
    · rw [if_pos hv]
      trivial
    · rw [if_neg hv]
      rfl

theorem mapPage_found {p : UInt64 × Fin 512} (h : find m a 2 pt = some p) :
    After (mapPage pt perm a pa) (fun ok _ => ok) m := by
  rw [mapPage, walk]
  by_cases ha : MAXVA ≤ a.toNat
  · rw [if_pos ha]
    trivial
  rw [if_neg ha]
  refine ensures_seq (walkFrom_found h) fun r m1 hr => ?_
  obtain ⟨rfl, rfl⟩ := hr
  rw [ensures_bind, ensures_gets]
  by_cases hv : Has (m1.page p.1 p.2) PTE_V
  · rw [if_pos hv]
    trivial
  · rw [if_neg hv]
    rfl

theorem uvmmap_safe (hT : Tree m 2 pt X) (haligned : a.toNat % 4096 = 0) (ha : a.toNat < MAXVA)
    (hnone : leaf m pt (vpn a) = none) (hok : After (mapPage pt perm a pa) (fun ok _ => ok) m) :
    Safe (uvmmap pt a pa 4096 perm) m := by
  rw [uvmmap, mappages_page haligned]
  refine (mapPage_safe hT ha hnone).seq hok fun ok m1 htrue _ => ?_
  rw [if_pos htrue]
  rfl

/-! ## Unmapping -/

theorem unmapPage_safe {doFree : Bool} (hs : Shape m 2 pt) (ha : a.toNat < MAXVA)
    (hram : doFree → ∀ e, leaf m pt (vpn a) = some e → Ram m.kend (PTE2PA e)) :
    Safe (unmapPage pt a doFree) m := by
  rw [unmapPage, walk, if_neg (Nat.not_le.mpr ha)]
  refine (walkFrom_safe a false 2 pt m).seq (walkFrom_find a 2 pt m) fun r m1 hfound _ => ?_
  obtain ⟨rfl, rfl⟩ := hfound
  cases hfind : find m1 a 2 pt with
  | none => rfl
  | some p =>
    obtain ⟨t, j⟩ := p
    dsimp only
    rw [Safe, Surely, ensures_bind, ensures_gets]
    by_cases hv : Has (m1.page t j) PTE_V
    · rw [if_neg (not_not.mpr hv), if_neg (not_not.mpr (hs.rwx hfind hv))]
      cases doFree with
      | false => rfl
      | true =>
        rw [if_pos rfl]
        have hleaf : leaf m1 pt (vpn a) = some (m1.page t j) := by
          rw [leaf_vpn ha, lookup, hfind, Option.bind_some, if_pos hv]
        have hpage := hram rfl _ hleaf
        generalize PTE2PA (m1.page t j) = q at hpage ⊢
        exact (kfree_safe hpage).seq (after_any _ _) fun _ m2 _ _ => rfl
    · rw [if_pos hv]
      rfl

theorem uvmunmap_safe {npages : UInt64} (hT : Tree m 2 pt (span (leaf m pt) (vpn va) (vpn va + npages.toNat) + X))
    (haligned : va.toNat % PGSIZE = 0) (hlt : va.toNat < MAXVA)
    (hroom : npages.toNat ≤ (MAXVA - va.toNat) / PGSIZE)
    (hram : ∀ pg ∈ span (leaf m pt) (vpn va) (vpn va + npages.toNat), Ram m.kend pg) :
    Safe (uvmunmap pt va npages true) m := by
  have hok : ¬ (va.toNat % PGSIZE ≠ 0 ∨ MAXVA ≤ va.toNat ∨ (MAXVA - va.toNat) / PGSIZE < npages.toNat) := by
    omega
  rw [uvmunmap, if_neg hok]
  refine ensures_mono (ensures_loop (fun i m' => m'.kend = m.kend ∧
    Unmapping m m' pt X (vpn va) (vpn va + npages.toNat) i) ?_ ⟨rfl, .start hT⟩) fun _ m' h => h.1
  intro i m1 _ hi hI
  obtain ⟨hkend, hI⟩ := hI
  have hpage : vpn (va + 4096 * UInt64.ofNat i) = vpn va + i := vpn_add haligned (by lia)
  have hbelow : (va + 4096 * UInt64.ofNat i).toNat < MAXVA := by
    unfold vpn at hpage
    lia
  have hsafe : Safe (unmapPage pt (va + 4096 * UInt64.ofNat i) true) m1 := by
    refine unmapPage_safe hI.unmapped.tree.shape hbelow fun _ e he => ?_
    rw [hpage, hI.leaf, clear, if_neg (by omega)] at he
    rw [hkend]
    refine hram _ (mem_sum.mpr ⟨vpn va + i, Finset.mem_Ico.mpr (by omega), ?_⟩)
    rw [he]
    exact mem_singleton_self _
  refine ensures_mono (ensures_and hsafe (hI.step hpage (by omega))) fun _ m2 h2 => ?_
  exact ⟨h2.1.trans hkend, h2.2⟩

theorem uvmunmap_page_safe (hs : Shape m 2 pt) (haligned : va.toNat % PGSIZE = 0) (hlt : va.toNat < MAXVA) :
    Safe (uvmunmap pt va 1 false) m := by
  have hone : (1 : UInt64).toNat = 1 := rfl
  have hfirst : va + 4096 * UInt64.ofNat 0 = va := by simp
  have hok : ¬ (va.toNat % PGSIZE ≠ 0 ∨ MAXVA ≤ va.toNat ∨ (MAXVA - va.toNat) / PGSIZE < (1 : UInt64).toNat) := by
    rw [hone]
    lia
  rw [uvmunmap, if_neg hok, hone, loop, hfirst]
  exact (unmapPage_safe hs hlt fun h => (by cases h)).seq (after_any _ _) fun _ m1 _ _ => rfl

/-! ## Freeing the tables -/

/-- An address with a given index at level `l + 1` and the indices of `va` below. -/
theorem exists_index (hl : l ≤ 1) (i : Fin 512) (va : UInt64) : ∃ va', PX (l + 1) va' = i ∧ SamePage l va va' := by
  have hi := i.isLt
  have hva := va.toNat_lt
  rcases Nat.le_one_iff_eq_zero_or_eq_one.mp hl with rfl | rfl
  · refine ⟨UInt64.ofNat (i.val * 2 ^ 21 + va.toNat % 2 ^ 21), Fin.ext ?_, fun k hk => Fin.ext ?_⟩
    · simp only [PX, Fin.ofNat, UInt64.toNat_ofNat']
      omega
    · obtain rfl : k = 0 := by omega
      simp only [PX, Fin.ofNat, UInt64.toNat_ofNat']
      omega
  · refine ⟨UInt64.ofNat (i.val * 2 ^ 30 + va.toNat % 2 ^ 30), Fin.ext ?_, fun k hk => Fin.ext ?_⟩
    · simp only [PX, Fin.ofNat, UInt64.toNat_ofNat']
      omega
    · rcases Nat.le_one_iff_eq_zero_or_eq_one.mp hk with rfl | rfl
      · simp only [PX, Fin.ofNat, UInt64.toNat_ofNat']
        omega
      · simp only [PX, Fin.ofNat, UInt64.toNat_ofNat']
        omega

theorem lookup_samePage {va' : UInt64} (h : SamePage l va va') : lookup m va' l pt = lookup m va l pt := by
  rw [lookup, lookup, find_samePage h]

/-- A table without leaves has none below an entry. -/
theorem lookup_child {c : UInt64} (hl : l ≤ 1)
    (hempty : ∀ va, i.val ≤ (PX (l + 1) va).val → lookup m va (l + 1) pt = none)
    (hc : child m pt i = some c) (va : UInt64) : lookup m va l c = none := by
  obtain ⟨va', hi, hsame⟩ := exists_index hl i va
  have hnone := hempty va' (Nat.le_of_eq (congrArg Fin.val hi).symm)
  rw [lookup_succ, hi, hc] at hnone
  rw [← lookup_samePage hsame]
  exact hnone

theorem freewalk_safe (hl : l ≤ 2) (hT : Tree m l pt X) (hempty : ∀ va, lookup m va l pt = none)
    (hram : ∀ pg ∈ tabs m l pt + ↑m.free, Ram m.kend pg) : Safe (freewalk (l + 1) pt) m := by
  have hstart : Clearing m m l pt X 0 :=
    ⟨hT.kept, fun j hj => absurd hj (by omega), fun va hva => absurd hva (by omega), fun va _ => rfl⟩
  have hroot : Ram m.kend pt := hram pt (mem_add.mpr (.inl (mem_tabs_self m l pt)))
  induction l generalizing m pt X with
  | zero =>
    rw [freewalk]
    refine ensures_seq (ensures_loop (fun n m' => m'.kend = m.kend ∧ Clearing m m' 0 pt X n) ?_
      ⟨rfl, hstart⟩) fun _ m' h => ?_
    · intro n m' _ hn h
      obtain ⟨hkend, h⟩ := h
      have hi : (Fin.ofNat 512 n).val = n := Nat.mod_eq_of_lt (by omega)
      have hinv : ¬ Has (m'.page pt (Fin.ofNat 512 n)) PTE_V := by
        intro hv
        have hpx : PX 0 (UInt64.ofNat (n * 4096)) = Fin.ofNat 512 n := by
          refine Fin.ext ?_
          simp only [PX, Fin.ofNat, UInt64.toNat_ofNat']
          omega
        have hnone := h.todo (UInt64.ofNat (n * 4096)) (by rw [hpx, hi])
        rw [hempty, lookup, find, Option.bind_some, hpx, if_pos hv] at hnone
        cases hnone
      rw [ensures_bind, ensures_gets, if_neg fun hptr => hinv hptr.1, if_neg hinv]
      have hskip := @Clearing.skip m m' 0 pt (Fin.ofNat 512 n) X (hi.symm ▸ h) hinv
      rw [hi] at hskip
      exact ⟨hkend, hskip⟩
    · refine ensures_mono (kfree_safe ?_) fun _ m'' hk => hk.trans h.1
      rw [h.1]
      exact hroot
  | succ l ih =>
    rw [freewalk]
    refine ensures_seq (ensures_loop (fun n m' => m'.kend = m.kend ∧ Clearing m m' (l + 1) pt X n) ?_
      ⟨rfl, hstart⟩) fun _ m' h => ?_
    · intro n m' _ hn h
      obtain ⟨hkend, h⟩ := h
      have hi : (Fin.ofNat 512 n).val = n := Nat.mod_eq_of_lt (by omega)
      rw [ensures_bind, ensures_gets]
      by_cases hv : Has (m'.page pt (Fin.ofNat 512 n)) PTE_V
      · obtain ⟨hchild, hpage, hentry, hsub⟩ := (h.kept.tree hT).below hv rfl
        have hptr : ¬ Has (m'.page pt (Fin.ofNat 512 n)) (PTE_R ||| PTE_W ||| PTE_X) := by
          rw [hentry, has_PA2PTE (by decide) (by decide)]
          decide
        have hnone := lookup_child (by omega : l ≤ 1) (fun va hva => ?_) hchild
        · have hram' : ∀ pg ∈ tabs m' l (PTE2PA (m'.page pt (Fin.ofNat 512 n))) + ↑m'.free, Ram m'.kend pg := by
            intro pg hpg
            rw [hkend]
            refine hram pg ?_
            rw [← h.kept.pages]
            rcases mem_add.mp hpg with hpg | hpg
            · exact mem_add.mpr (.inl (tabs_child_subset hchild hpg))
            · exact mem_add.mpr (.inr hpg)
          have hbelow := ih (by omega) hsub hnone hram'
            ⟨hsub.kept, fun j hj => absurd hj (by omega), fun va hva => absurd hva (by omega), fun va _ => rfl⟩
            (hram' _ (mem_add.mpr (.inl (mem_tabs_self m' l _))))
          rw [if_pos ⟨hv, hptr⟩]
          refine ensures_seq (ensures_and hbelow (freewalk_after hsub)) fun _ m1 hF => ?_
          rw [ensures_modify]
          have hdrop := @Clearing.drop m m' l pt (Fin.ofNat 512 n) X m1 _ (hi.symm ▸ h) hT hchild hF.2.free
            hF.2.agree hF.2.empty hF.2.good
          rw [hi] at hdrop
          exact ⟨hF.1.trans hkend, hdrop⟩
        · rw [hi] at hva
          rw [h.todo va hva]
          exact hempty va
      · rw [if_neg fun hptr => hv hptr.1, if_neg hv]
        have hskip := @Clearing.skip m m' (l + 1) pt (Fin.ofNat 512 n) X (hi.symm ▸ h) hv
        rw [hi] at hskip
        exact ⟨hkend, hskip⟩
    · refine ensures_mono (kfree_safe ?_) fun _ m'' hk => hk.trans h.1
      rw [h.1]
      exact hroot

/-! ## Copying -/

theorem Img.rollback_safe {i : UInt64} (h : Img m pt F (vpn i) X) (hi : vpn i ≤ frameVpn)
    (hram : ∀ pg ∈ img m pt (vpn i), Ram m.kend pg) : Safe (uvmunmap pt 0 (i / 4096) true) m := by
  have hsize : (4096 : UInt64).toNat = 4096 := rfl
  have hcount : vpn 0 + (i / 4096).toNat = vpn i := by
    rw [UInt64.toNat_div, hsize]
    exact Nat.zero_add _
  have hzero : vpn 0 = 0 := rfl
  refine uvmunmap_safe (X := X) ?_ (by decide) (by decide) ?_ fun pg hpg => ?_
  · rw [hcount, hzero]
    exact h.tree
  · rw [hzero, Nat.zero_add] at hcount
    rw [hcount]
    exact Nat.le_trans hi (by decide)
  · rw [hcount, hzero] at hpg
    exact hram pg (mem_add.mpr (.inr hpg))

theorem copyLoop_safe {i : UInt64} (hF : Frames F) (h : Img m pt F (vpn i) X) (hs : Shape m 2 old)
    (hold : tabs m 2 old ⊆ X) (hram : ∀ pg ∈ img m pt (vpn i) + ↑m.free, Ram m.kend pg)
    (hi : i.toNat % 4096 = 0) (hroom : vpn i + k ≤ frameVpn) : Safe (copyLoop old pt k i) m := by
  induction k generalizing m i with
  | zero => rfl
  | succ k ih =>
    obtain ⟨hnext, haligned⟩ := vpn_succ hi (by omega)
    have hlt : i.toNat < MAXVA := by
      have hv : vpn i < frameVpn := by omega
      unfold vpn at hv
      lia
    -- the page at `i` is done in `m1`; the rest of the loop follows
    have hgo : ∀ m1, Img m1 pt F (vpn i + 1) X → Moved m m1 pt (vpn i) (vpn i + 1) X → m1.kend = m.kend →
        Safe (copyLoop old pt k (i + 4096)) m1 := by
      intro m1 himg hmoved hkend
      have hsame : Same m m1 2 old := .of_agree (hmoved.agree.mono hold)
      rw [← hnext] at himg hmoved
      refine ih himg (hsame.shape hs) ?_ (fun pg hpg => ?_) haligned (by omega)
      · rw [hsame.tabs]
        exact hold
      · rw [hmoved.pages] at hpg
        rw [hkend]
        exact hram pg hpg
    have hskip := h.skip hF (by omega)
    rw [copyLoop, walk, if_neg (Nat.not_le.mpr hlt)]
    refine (walkFrom_safe i false 2 old m).seq (walkFrom_find i 2 old m) fun r m1 hfound _ => ?_
    obtain ⟨rfl, rfl⟩ := hfound
    cases hfind : find m1 i 2 old with
    | none => exact hgo m1 hskip.1 hskip.2 rfl
    | some p =>
      obtain ⟨t, j⟩ := p
      dsimp only
      rw [Safe, Surely, ensures_bind, ensures_gets]
      by_cases hv : Has (m1.page t j) PTE_V
      · have hrwx := hs.rwx hfind hv
        rw [if_neg (not_not.mpr hv), if_neg (not_not.mpr hrwx)]
        refine (kalloc_safe m1).seq h.kalloc_after fun r m2 hr hkend => ?_
        rcases hr with ⟨rfl, rfl⟩ | ⟨mem, rfl, hT⟩
        · refine (h.rollback_safe (by omega) fun pg hpg => ?_).seq (after_any _ _) fun _ m' _ _ => rfl
          exact hram pg (mem_add.mpr (.inl hpg))
        · dsimp only
          obtain ⟨hcopied, hsame, hcopy⟩ := hT.img.copyPage (PTE2PA (m1.page t j))
          have hperm : (PTE_FLAGS (m1.page t j)).toNat < 1024 := by
            rw [toNat_PTE_FLAGS]
            omega
          have hflags : Has (PTE_FLAGS (m1.page t j)) (PTE_R ||| PTE_W ||| PTE_X) := by
            rw [Has, ← and_flag (by decide)]
            exact hrwx
          have htook : mem ::ₘ (img (m2.copyPage mem (PTE2PA (m1.page t j))) pt (vpn i) + ↑m2.free) =
              img m1 pt (vpn i) + ↑m1.free := by
            rw [hsame, hT.same, hT.free, add_cons]
          have hnone : leaf (m2.copyPage mem (PTE2PA (m1.page t j))) pt (vpn i) = none := by
            rw [hcopied.high (vpn i) (Nat.le_refl _)]
            exact hF.none (vpn i) (by omega)
          rw [Safe, Surely, ensures_bind, ensures_modify, mappages_page hi]
          have hmap : Safe (mapPage pt (PTE_FLAGS (m1.page t j)) i mem) (m2.copyPage mem (PTE2PA (m1.page t j))) :=
            mapPage_safe hcopied.tree hlt hnone
          refine hmap.seq (hcopied.mapPage_after hT.page hF.frame rfl hperm hflags) ?_
          intro ok m3 hM hkend3
          obtain ⟨hagree, hdone, hfail⟩ := hM
          have hX : Agree m1 m3 X := (hT.agree.trans hcopy).trans hagree
          have hk : m3.kend = m1.kend := hkend3.trans hkend
          cases ok with
          | true =>
            obtain ⟨himg, hpages⟩ := hdone rfl
            exact hgo m3 himg ⟨hpages.trans htook, hX⟩ hk
          | false =>
            obtain ⟨himg, hpages⟩ := hfail rfl
            have hpage : ∀ pg ∈ mem ::ₘ (img m3 pt (vpn i) + ↑m3.free), Ram m3.kend pg := by
              intro pg hpg
              rw [hpages] at hpg
              rw [hk]
              refine hram pg ?_
              rw [← htook]
              exact hpg
            refine (kfree_safe (hpage mem (mem_cons_self mem _))).seq himg.kfree_after ?_
            intro _ m4 h4 hk4
            obtain ⟨himg4, hsame4, hfree4, hagree4⟩ := h4
            refine (himg4.rollback_safe (by omega) fun pg hpg => ?_).seq (after_any _ _) fun _ m' _ _ => rfl
            rw [hsame4] at hpg
            rw [hk4]
            exact hpage pg (mem_cons_of_mem (mem_add.mpr (.inl hpg)))
      · rw [if_pos hv]
        exact hgo m1 hskip.1 hskip.2 rfl

theorem uvmcopy_safe {sz : UInt64} (hF : Frames F) (h : Img m pt F 0 X) (hs : Shape m 2 old)
    (hold : tabs m 2 old ⊆ X) (hram : ∀ pg ∈ img m pt 0 + ↑m.free, Ram m.kend pg)
    (hsz : npages sz ≤ frameVpn) : Safe (uvmcopy old pt sz) m := by
  have hpages : vpn 0 + pagesTo 0 sz = npages sz := by
    show 0 / 4096 + (sz.toNat - 0 + 4095) / 4096 = (sz.toNat + 4095) / 4096
    omega
  exact copyLoop_safe hF h hs hold hram (by decide) (hpages ▸ hsz)

/-! ## New page tables -/

theorem kalloc_length (m : Mem) :
    After kalloc (fun r m' => (r = none → m.free = []) ∧ (r ≠ none → m.free.length = m'.free.length + 1)) m := by
  refine kalloc_after (fun hfree => ⟨fun _ => hfree, fun h => absurd rfl h⟩) fun pg rest hfree => ?_
  refine ⟨nofun, fun _ => ?_⟩
  rw [hfree]
  rfl

theorem uvmcreate_safe (m : Mem) : Safe uvmcreate m := by
  rw [uvmcreate]
  refine (kalloc_safe m).seq (after_any _ _) fun r m1 _ _ => ?_
  cases r with
  | none => rfl
  | some pg => rfl

/-- A new page table is one page from the free list. -/
theorem uvmcreate_fresh (m : Mem) :
    After uvmcreate (fun r m' => (r = none → m.free = []) ∧
      ∀ pt, r = some pt → tabs m' 2 pt = {pt} ∧ m.free.length = m'.free.length + 1) m := by
  rw [uvmcreate, After, ensures_bind]
  refine kalloc_after (fun hfree => ⟨fun _ => hfree, by simp⟩) fun pg rest hfree => ?_
  dsimp only
  rw [ensures_bind, ensures_modify]
  refine ⟨by simp, fun pt hpt => ?_⟩
  cases hpt
  refine ⟨(empty_tabs (fun i => by simp [Mem.fill]) 2).1, ?_⟩
  rw [hfree]
  rfl

/-- Two addresses with the same entries of the upper levels have their leaves in the same table. -/
theorem find_sibling {va' : UInt64} (h2 : PX 2 va' = PX 2 va) (h1 : PX 1 va' = PX 1 va)
    (hf : find m va 2 pt = some (t, j)) : find m va' 2 pt = some (t, PX 0 va') := by
  obtain ⟨c, hc, hf⟩ := Option.bind_eq_some_iff.mp hf
  obtain ⟨d, hd, hf⟩ := Option.bind_eq_some_iff.mp hf
  cases hf
  rw [find, h2, hc, Option.bind_some, find, h1, hd, Option.bind_some, find]

theorem exists_find_of_leaf {e : UInt64} (ha : a.toNat < MAXVA) (he : leaf m pt (vpn a) = some e) :
    ∃ p, find m a 2 pt = some p := by
  rw [leaf_vpn ha, lookup] at he
  obtain ⟨p, hp, -⟩ := Option.bind_eq_some_iff.mp he
  exact ⟨p, hp⟩

/-- Two free pages are enough for the tables of the two mappings. -/
theorem mapFrames_safe {trampoline tf : UInt64} (hT : Tree m 2 pt X) (hempty : leaf m pt = fun _ => none)
    (hlen : 2 ≤ m.free.length) : Safe (mapFrames trampoline pt tf) m := by
  rw [mapFrames]
  refine (uvmmap_safe hT (by decide) (by decide) (by rw [hempty]) (mapPage_enough hlen)).seq
    (uvmmap_after hT (by decide) (by decide)) fun _ m1 h1 _ => ?_
  obtain ⟨hK, hleaf⟩ := h1
  obtain ⟨p, hp⟩ := exists_find_of_leaf (by decide) ((congrFun hleaf _).trans (Function.update_self ..))
  have hfind := @find_sibling m1 pt _ p.1 p.2 (UInt64.ofNat TRAPFRAME) (by decide) (by decide) hp
  refine uvmmap_safe (hK.tree hT) (by decide) (by decide) ?_ (mapPage_found hfind)
  rw [hleaf, vpn_trapframe, vpn_trampoline, Function.update_of_ne (by omega), hempty]

/-- With fewer free pages `uvmmap` panics. -/
theorem mapFrames_panics {trampoline tf : UInt64} (hT : Tree m 2 pt X) (htabs : tabs m 2 pt = {pt})
    (hlen : m.free.length < 2) : After (mapFrames trampoline pt tf) (fun _ _ => False) m := by
  rw [mapFrames]
  refine ensures_seq (uvmmap_after hT (by decide) (by decide)) fun _ m1 h1 => ?_
  obtain ⟨hK, hleaf⟩ := h1
  obtain ⟨p, hp⟩ := exists_find_of_leaf (by decide) ((congrFun hleaf _).trans (Function.update_self ..))
  have hcard := congrArg card hK.pages
  rw [htabs, card_add, card_add, card_singleton, coe_card,
    coe_card] at hcard
  have := card_of_find hp
  omega

theorem unmapFrames_safe (hT : Tree m 2 pt X) : Safe (unmapFrames pt) m := by
  rw [unmapFrames]
  refine (uvmunmap_page_safe hT.shape (by decide) (by decide)).seq
    (uvmunmap_page_after hT (by decide) (by decide)) fun _ m1 h1 _ => ?_
  exact uvmunmap_page_safe h1.1.tree.shape (by decide) (by decide)

/-- The leaves by page number are all the leaves. -/
theorem lookup_of_leaf (h : ∀ v, leaf m pt v = none) (va : UInt64) : lookup m va 2 pt = none := by
  have hlt : va.toNat / 4096 % 2 ^ 27 < 2 ^ 27 := Nat.mod_lt _ (by decide)
  have hnone := h (va.toNat / 4096 % 2 ^ 27)
  rw [leaf, if_pos hlt] at hnone
  rw [← hnone]
  refine (lookup_samePage fun k hk => Fin.ext ?_).symm
  simp only [PX, Fin.ofNat, toNat_page hlt]
  have hk' : k = 0 ∨ k = 1 ∨ k = 2 := by omega
  rcases hk' with rfl | rfl | rfl
  · omega
  · omega
  · omega

theorem uvmfree_safe (h : Img m pt (fun _ => none) 0 X)
    (hram : ∀ pg ∈ img m pt 0 + ↑m.free, Ram m.kend pg) : Safe (uvmfree pt 0) m := by
  have hT := h.tree
  rw [span_self, zero_add] at hT
  rw [uvmfree, if_neg (by decide)]
  refine freewalk_safe (Nat.le_refl 2) hT (lookup_of_leaf fun v => h.high v (Nat.zero_le v)) fun pg hpg => ?_
  refine hram pg ?_
  rw [img, span_self, add_zero]
  exact hpg

/-! ## The end of the kernel -/

/-- The program does not move the end of the kernel. -/
def Fixed (x : Prog Mem α) : Prop := ∀ m, After x (fun _ m' => m'.kend = m.kend) m

section Fixed

variable {x : Prog Mem α} {h : α → Prog Mem β}

theorem fixed_pure (a : α) : Fixed (pure a : Prog Mem α) := fun _ => rfl

theorem fixed_panic (msg : String) : Fixed (Prog.panic msg : Prog Mem α) := fun _ => trivial

theorem fixed_gets (f : Mem → α) : Fixed (gets f) := fun _ => (ensures_gets ..).mpr rfl

theorem fixed_modify {f : Mem → Mem} (hf : ∀ m, (f m).kend = m.kend) : Fixed (Prog.modify f) :=
  fun m => (ensures_modify ..).mpr (hf m)

theorem Fixed.bind (hx : Fixed x) (hh : ∀ a, Fixed (h a)) : Fixed (x >>= h) :=
  fun m => ensures_seq (hx m) fun a m' hk => ensures_mono (hh a m') fun _ _ hk' => hk'.trans hk

theorem fixed_ite {c : Prop} [Decidable c] {y : Prog Mem α} (hx : Fixed x) (hy : Fixed y) :
    Fixed (if c then x else y) := by
  split
  · exact hx
  · exact hy

theorem fixed_loop {body : Nat → Prog Mem Unit} (hb : ∀ i, Fixed (body i)) (b n : Nat) : Fixed (loop body b n) :=
  fun m => ensures_loop (fun _ m' => m'.kend = m.kend)
    (fun i m' _ _ hk => ensures_mono (hb i m') fun _ _ hk' => hk'.trans hk) rfl

theorem fixed_kalloc : Fixed kalloc := fun m => ensures_of_total (kalloc_safe m)

theorem fixed_kfree (pg : UInt64) : Fixed (kfree pg) := fun _ => Vm.kfree_after fun _ => rfl

theorem fixed_walkFrom (va : UInt64) (alloc : Bool) (l : Nat) (pt : UInt64) : Fixed (walkFrom va alloc l pt) :=
  fun m => ensures_of_total (walkFrom_safe va alloc l pt m)

theorem fixed_walk (pt va : UInt64) (alloc : Bool) : Fixed (walk pt va alloc) :=
  fixed_ite (fixed_panic _) (fixed_walkFrom va alloc 2 pt)

theorem fixed_walkaddr (pt va : UInt64) : Fixed (walkaddr pt va) := by
  refine fixed_ite (fixed_pure _) ((fixed_walk pt va false).bind fun r => ?_)
  cases r with
  | none => exact fixed_pure _
  | some p => exact (fixed_gets _).bind fun pte => fixed_ite (fixed_pure _) (fixed_ite (fixed_pure _) (fixed_pure _))

theorem fixed_mapPage (pt perm a pa : UInt64) : Fixed (mapPage pt perm a pa) := by
  refine (fixed_walk pt a true).bind fun r => ?_
  cases r with
  | none => exact fixed_pure _
  | some p =>
    refine (fixed_gets _).bind fun pte => fixed_ite (fixed_panic _) (Fixed.bind ?_ fun _ => fixed_pure _)
    exact fixed_modify fun _ => rfl

theorem fixed_mapLoop (pt perm : UInt64) (n : Nat) (a pa : UInt64) : Fixed (mapLoop pt perm n a pa) := by
  induction n generalizing a pa with
  | zero => exact fixed_mapPage pt perm a pa
  | succ n ih => exact (fixed_mapPage pt perm a pa).bind fun ok => fixed_ite (ih _ _) (fixed_pure _)

theorem fixed_mappages (pt va size pa perm : UInt64) : Fixed (mappages pt va size pa perm) :=
  fixed_ite (fixed_panic _) (fixed_mapLoop pt perm _ _ _)

theorem fixed_uvmmap (pt va pa size perm : UInt64) : Fixed (uvmmap pt va pa size perm) :=
  (fixed_mappages pt va size pa perm).bind fun _ => fixed_ite (fixed_pure _) (fixed_panic _)

theorem fixed_uvmcreate : Fixed uvmcreate := fun m => ensures_of_total (uvmcreate_safe m)

theorem fixed_unmapPage (pt a : UInt64) (doFree : Bool) : Fixed (unmapPage pt a doFree) := by
  refine (fixed_walk pt a false).bind fun r => ?_
  cases r with
  | none => exact fixed_pure _
  | some p =>
    refine (fixed_gets _).bind fun pte => fixed_ite (fixed_pure _) (fixed_ite (fixed_panic _) ?_)
    generalize PTE2PA pte = q
    refine fixed_ite ((fixed_kfree q).bind fun _ => ?_) ?_
    · exact fixed_modify fun _ => rfl
    · exact fixed_modify fun _ => rfl

theorem fixed_uvmunmap (pt va npages : UInt64) (doFree : Bool) : Fixed (uvmunmap pt va npages doFree) :=
  fixed_ite (fixed_panic _) (fixed_loop (fun _ => fixed_unmapPage pt _ doFree) _ _)

theorem fixed_freewalk (d : Nat) (pt : UInt64) : Fixed (freewalk d pt) := by
  induction d generalizing pt with
  | zero => exact fixed_panic _
  | succ d ih =>
    refine (fixed_loop (fun i => (fixed_gets _).bind fun pte => fixed_ite ?_ ?_) _ _).bind fun _ => fixed_kfree pt
    · exact (ih _).bind fun _ => fixed_modify fun _ => rfl
    · exact fixed_ite (fixed_panic _) (fixed_pure _)

theorem fixed_uvmfree (pt sz : UInt64) : Fixed (uvmfree pt sz) := by
  unfold uvmfree
  exact fixed_ite ((fixed_uvmunmap pt _ _ _).bind fun _ => fixed_freewalk 3 pt) (fixed_freewalk 3 pt)

theorem fixed_allocLoop (pt start newsz xperm : UInt64) (n : Nat) (a : UInt64) :
    Fixed (allocLoop pt start newsz xperm n a) := by
  induction n generalizing a with
  | zero => exact fixed_pure _
  | succ n ih =>
    refine fixed_kalloc.bind fun r => ?_
    cases r with
    | none => exact (fixed_uvmunmap pt _ _ _).bind fun _ => fixed_pure _
    | some mem =>
      refine (fixed_mappages pt a 4096 mem _).bind fun ok => fixed_ite (ih _) ?_
      exact (fixed_kfree mem).bind fun _ => (fixed_uvmunmap pt _ _ _).bind fun _ => fixed_pure _

theorem fixed_uvmalloc (pt oldsz newsz xperm : UInt64) : Fixed (uvmalloc pt oldsz newsz xperm) :=
  fixed_ite (fixed_pure _) (fixed_allocLoop pt _ newsz xperm _ _)

theorem fixed_copyLoop (old new : UInt64) (n : Nat) (i : UInt64) : Fixed (copyLoop old new n i) := by
  induction n generalizing i with
  | zero => exact fixed_pure _
  | succ n ih =>
    refine (fixed_walk old i false).bind fun r => ?_
    cases r with
    | none => exact ih _
    | some p =>
      refine (fixed_gets _).bind fun pte => fixed_ite (ih _) (fixed_ite (fixed_panic _) ?_)
      refine fixed_kalloc.bind fun r => ?_
      cases r with
      | none => exact (fixed_uvmunmap new _ _ _).bind fun _ => fixed_pure _
      | some mem =>
        refine Fixed.bind (fixed_modify ?_) fun _ => ?_
        · exact fun _ => rfl
        refine (fixed_mappages new i 4096 mem _).bind fun ok => fixed_ite (ih _) ?_
        exact (fixed_kfree mem).bind fun _ => (fixed_uvmunmap new _ _ _).bind fun _ => fixed_pure _

theorem fixed_mapFrames (trampoline pt tf : UInt64) : Fixed (mapFrames trampoline pt tf) :=
  (fixed_uvmmap pt _ _ _ _).bind fun _ => fixed_uvmmap pt _ _ _ _

theorem fixed_unmapFrames (pt : UInt64) : Fixed (unmapFrames pt) :=
  (fixed_uvmunmap pt _ _ _).bind fun _ => fixed_uvmunmap pt _ _ _

end Fixed

end Xv6.Vm
