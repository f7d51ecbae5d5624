import Xv6.Vm.Space

/-!
# What the page table functions own

The postconditions of `kalloc`, `kfree`, `walk`, `mappages`, `uvmunmap` and `freewalk` as statements about
pages: what was free or part of the table before is free or part of the table afterwards, and a page
outside of both is not touched.

`X` stands for all the other pages in use. Nothing is said about runs that panic.
-/

namespace Xv6.Vm

open Coop Prog Data Multiset

/-- The postcondition of a program that is not stopped by a panic. -/
abbrev After {α : Type} (x : Prog Mem α) (Q : α → Mem → Prop) (m : Mem) : Prop :=
  x.ensures (fun _ => True) (fun _ _ => True) Q m

variable {m m' : Mem} {l : Nat} {pt pg va t : UInt64} {i j : Fin 512} {X Y : Multiset UInt64}

/-! ## The allocator -/

theorem kalloc_after {Q : Option UInt64 → Mem → Prop} (hnone : m.free = [] → Q none m)
    (hsome : ∀ pg rest, m.free = pg :: rest → Q (some pg) ({ m with free := rest }.fill pg 0)) :
    After kalloc Q m := by
  refine (ensures_step _ _ _).mpr ?_
  cases hfree : m.free with
  | nil => exact hnone hfree
  | cons pg rest => exact hsome pg rest hfree

/-- The memory after `kfree`. -/
def Mem.release (m : Mem) (pg : UInt64) : Mem := { m.fill pg poison with free := pg :: m.free }

theorem release_free (m : Mem) (pg : UInt64) : ((m.release pg).free : Multiset UInt64) = {pg} + ↑m.free := by
  rw [Mem.release, ← cons_coe, singleton_add]

theorem kfree_after {Q : Unit → Mem → Prop} (h : IsPage pg → Q () (m.release pg)) : After (kfree pg) Q m := by
  refine (ensures_step _ _ _).mpr ?_
  by_cases hbad : pg.toNat % PGSIZE ≠ 0 ∨ pg < m.kend ∨ PHYSTOP ≤ pg.toNat
  · rw [if_pos hbad]
    trivial
  · rw [if_neg hbad]
    obtain ⟨haligned, -, htop⟩ := not_or.mp hbad |>.imp_right not_or.mp
    exact h ⟨not_not.mp haligned, by have : pg.toNat < PHYSTOP := Nat.lt_of_not_le htop; lia⟩

/-- The free pages are pages, and no page occurs twice among them and `X`. -/
structure Pool (m : Mem) (X : Multiset UInt64) : Prop where
  nodup : (↑m.free + X).Nodup
  good : ∀ pg ∈ m.free, IsPage pg

structure Allocated (m m' : Mem) (X : Multiset UInt64) (pg : UInt64) : Prop where
  page : IsPage pg
  pool : Pool m' (pg ::ₘ X)
  free : (m.free : Multiset UInt64) = pg ::ₘ ↑m'.free
  agree : Agree m m' X
  zero : ∀ i, m'.page pg i = 0

theorem Pool.kalloc_after (h : Pool m X) :
    After kalloc (fun r m' => (r = none ∧ m' = m) ∨ ∃ pg, r = some pg ∧ Allocated m m' X pg) m := by
  refine Vm.kalloc_after (fun _ => .inl ⟨rfl, rfl⟩) fun pg rest hfree => .inr ⟨pg, rfl, ?_⟩
  have hcoe : (m.free : Multiset UInt64) = pg ::ₘ ↑rest := by rw [hfree, cons_coe]
  have hnd := h.nodup
  rw [hcoe, cons_add] at hnd
  have hnot := (nodup_cons.mp hnd).1
  rw [mem_add, not_or] at hnot
  refine ⟨h.good pg (hfree ▸ List.mem_cons_self), ⟨?_, fun q hq => ?_⟩, hcoe, ?_, fun i => ?_⟩
  · rw [add_cons]
    exact hnd
  · exact h.good q (hfree ▸ List.mem_cons_of_mem pg hq)
  · exact Agree.fill hnot.2
  · simp [Mem.fill]

theorem Pool.kfree_after (h : Pool m (pg ::ₘ X)) :
    After (kfree pg) (fun _ m' => Pool m' X ∧ (m'.free : Multiset UInt64) = pg ::ₘ ↑m.free ∧
      Agree m m' X) m := by
  refine Vm.kfree_after fun hpage => ?_
  have hfree : ((m.release pg).free : Multiset UInt64) = pg ::ₘ ↑m.free := by
    rw [release_free, singleton_add]
  have hnd := h.nodup
  rw [add_cons] at hnd
  have hnot := (nodup_cons.mp hnd).1
  rw [mem_add, not_or] at hnot
  have hagree : Agree m (m.release pg) X := Agree.fill hnot.2
  refine ⟨⟨?_, fun q hq => ?_⟩, hfree, hagree⟩
  · rw [hfree, cons_add]
    exact hnd
  · rcases List.mem_cons.mp hq with rfl | hq
    · exact hpage
    · exact h.good q hq

/-! ## A tree, the free pages and the others -/

/-- A well-formed tree; no page occurs twice among its tables, the free pages and `X`. -/
structure Tree (m : Mem) (l : Nat) (pt : UInt64) (X : Multiset UInt64) : Prop where
  shape : Shape m l pt
  nodup : (tabs m l pt + ↑m.free + X).Nodup
  good : ∀ pg ∈ m.free, IsPage pg

/-- The tables of a tree have grown from the free pages, or shrunk. -/
structure Kept (m m' : Mem) (l : Nat) (pt : UInt64) (X : Multiset UInt64) : Prop where
  shape : Shape m' l pt
  pages : tabs m' l pt + ↑m'.free = tabs m l pt + ↑m.free
  agree : Agree m m' X
  good : ∀ pg ∈ m'.free, IsPage pg

theorem Kept.tree (h : Kept m m' l pt X) (hT : Tree m l pt X) : Tree m' l pt X := by
  refine ⟨h.shape, ?_, h.good⟩
  rw [h.pages]
  exact hT.nodup

theorem Kept.trans {m'' : Mem} (h : Kept m m' l pt X) (h' : Kept m' m'' l pt X) : Kept m m'' l pt X :=
  ⟨h'.shape, h'.pages.trans h.pages, h.agree.trans h'.agree, h'.good⟩

theorem Tree.kept (h : Tree m l pt X) : Kept m m l pt X := ⟨h.shape, rfl, .refl m X, h.good⟩

/-- The table itself is none of the other pages. -/
theorem Tree.root_notMem (hT : Tree m (l + 1) pt X) (i : Fin 512) : pt ∉ X + rest (Vm.below m l pt) i := by
  have h := hT.nodup
  rw [tabs_succ m l pt i, cons_add, cons_add] at h
  have hnot := (nodup_cons.mp h).1
  simp only [mem_add, not_or] at hnot ⊢
  exact ⟨hnot.2, hnot.1.1.2⟩

theorem lookup_of_invalid (h : ¬ Has (m.page pt (PX l va)) PTE_V) : lookup m va l pt = none := by
  cases l with
  | zero => simp only [lookup, find, Option.bind_some, if_neg h]
  | succ l =>
    rw [lookup_succ, child, if_neg h]
    rfl

theorem tabs_of_invalid (h : ∀ i, ¬ Has (m.page pt i) PTE_V) : tabs m l pt = {pt} := by
  cases l with
  | zero => rfl
  | succ l =>
    rw [tabs_eq_cons, total_eq_zero fun i => below_of_none (if_neg (h i))]
    rfl

/-- A page of zeros is a tree without leaves. -/
theorem empty_tabs (h : ∀ i, m.page pt i = 0) (l : Nat) :
    tabs m l pt = {pt} ∧ Shape m l pt ∧ ∀ va, lookup m va l pt = none := by
  have hinv : ∀ i, ¬ Has (m.page pt i) PTE_V := by
    intro i
    rw [h i]
    decide
  refine ⟨tabs_of_invalid hinv, ?_, fun va => lookup_of_invalid (hinv _)⟩
  cases l with
  | zero => exact fun i hi => absurd hi (hinv i)
  | succ l => exact fun i hi => absurd hi (hinv i)

/-- A change below one entry of a table is a change of the table. -/
theorem Kept.of_entry (hT : Tree m (l + 1) pt X) (hpage : ∀ j, j ≠ i → m'.page pt j = m.page pt j)
    (hrest : Agree m m' (rest (below m l pt) i)) (hX : Agree m m' X)
    (hbelow : below m' l pt i + ↑m'.free = below m l pt i + ↑m.free)
    (hentry : Has (m'.page pt i) PTE_V →
      ∃ c, IsPage c ∧ m'.page pt i = PA2PTE c ||| PTE_V ∧ Shape m' l c)
    (hgood : ∀ pg ∈ m'.free, IsPage pg) : Kept m m' (l + 1) pt X := by
  have hso := SameOthers.of_agree hpage hrest
  refine ⟨?_, ?_, hX, hgood⟩
  · intro j hj
    by_cases hji : j = i
    · subst hji
      exact hentry hj
    · rw [hpage j hji] at hj ⊢
      obtain ⟨c, hc, he, hs⟩ := hT.shape j hj
      have hchild : child m pt j = some c := by
        rw [child, if_pos hj, he, PTE2PA_PA2PTE hc (by decide)]
      exact ⟨c, hc, he, (hso.same j c hji hchild).shape hs⟩
  · rw [tabs_succ m' l pt i, tabs_succ m l pt i, hso.rest, cons_add, cons_add, add_right_comm, hbelow, add_right_comm]

theorem lookup_of_entry (hpage : ∀ j, j ≠ i → m'.page pt j = m.page pt j)
    (hrest : Agree m m' (rest (below m l pt) i)) (hva : PX (l + 1) va ≠ i) :
    lookup m' va (l + 1) pt = lookup m va (l + 1) pt := by
  have hso := SameOthers.of_agree hpage hrest
  rw [lookup_succ, lookup_succ, hso.child _ hva]
  cases hc : child m pt (PX (l + 1) va) with
  | none => rfl
  | some c => exact (hso.same _ c hva hc).lookup va

/-- The tree below an entry, with the rest of the table as other pages. -/
theorem Tree.below {c : UInt64} (hT : Tree m (l + 1) pt X) (hv : Has (m.page pt i) PTE_V)
    (hc : c = PTE2PA (m.page pt i)) :
    child m pt i = some c ∧ IsPage c ∧ m.page pt i = PA2PTE c ||| PTE_V ∧
      Tree m l c (X + pt ::ₘ rest (below m l pt) i) := by
  obtain ⟨c', hpage, he, hs⟩ := hT.shape i hv
  have hcc : c' = c := by rw [hc, he, PTE2PA_PA2PTE hpage (by decide)]
  subst hcc
  have hchild : child m pt i = some c' := by rw [child, if_pos hv, hc]
  refine ⟨hchild, hpage, he, hs, ?_, hT.good⟩
  have h := hT.nodup
  rw [tabs_succ m l pt i, below_of_child hchild] at h
  convert h using 1
  simp only [← singleton_add]
  abel

/-! ## Walking -/

theorem nodup_free_tail {rest : List UInt64} (hT : Tree m l pt X) (hfree : m.free = pg :: rest) :
    pg ∉ tabs m l pt ∧ pg ∉ X ∧ pg ∉ rest ∧ IsPage pg := by
  have h := hT.nodup
  rw [hfree, ← cons_coe] at h
  have hsplit : (pg ::ₘ (tabs m l pt + ↑rest + X)).Nodup := by
    convert h using 1
    simp only [← singleton_add]
    abel
  obtain ⟨hnot, -⟩ := nodup_cons.mp hsplit
  simp only [mem_add, mem_coe, not_or] at hnot
  exact ⟨hnot.1.1, hnot.2, hnot.1.2, hT.good pg (hfree ▸ List.mem_cons_self)⟩

/-- The new table that `walk` hangs under entry `i` of `pt`. -/
def Mem.hang (m : Mem) (pt pg : UInt64) (i : Fin 512) (rest : List UInt64) : Mem :=
  ((({ m with free := rest }.fill pg 0).fill pg 0).setWord pt i (PA2PTE pg ||| PTE_V))

theorem hang_page_of_ne {rest : List UInt64} {q : UInt64} (hpt : q ≠ pt) (hpg : q ≠ pg) :
    (m.hang pt pg i rest).page q = m.page q := by
  rw [Mem.hang, setWord_page_of_ne hpt]
  simp [Mem.fill, hpg]

theorem hang_page_other {rest : List UInt64} (hpg : pt ≠ pg) (hj : j ≠ i) :
    (m.hang pt pg i rest).page pt j = m.page pt j := by
  rw [Mem.hang, setWord_page_other hj]
  simp [Mem.fill, hpg]

theorem hang_page_new {rest : List UInt64} (hpg : pt ≠ pg) (j : Fin 512) : (m.hang pt pg i rest).page pg j = 0 := by
  rw [Mem.hang, setWord_page_of_ne hpg.symm]
  simp [Mem.fill]

/-- The tree of the new table, with the old tree as other pages. -/
theorem Tree.hang {rest' : List UInt64} (hT : Tree m (l + 1) pt X) (hfree : m.free = pg :: rest')
    (hinv : ¬ Has (m.page pt i) PTE_V) :
    Tree (m.hang pt pg i rest') l pg (X + pt ::ₘ rest (Vm.below m l pt) i) := by
  obtain ⟨hnew, -, -, -⟩ := nodup_free_tail hT hfree
  have hne : pt ≠ pg := fun heq => hnew (heq ▸ mem_tabs_self m (l + 1) pt)
  obtain ⟨htabs, hshape, -⟩ := empty_tabs (hang_page_new hne) l
  refine ⟨hshape, ?_, fun q hq => hT.good q (hfree ▸ List.mem_cons_of_mem pg hq)⟩
  have h := hT.nodup
  rw [tabs_succ m l pt i, below_of_none (if_neg hinv), hfree, ← cons_coe] at h
  rw [htabs]
  convert h using 1
  simp only [← singleton_add, zero_add]
  have hf : (m.hang pt pg i rest').free = rest' := rfl
  rw [hf]
  abel

/-- What `walk` leaves behind: the leaves are the same, and the entry it returns is that of the address. -/
structure Walked (m m' : Mem) (l : Nat) (pt va : UInt64) (X : Multiset UInt64)
    (r : Option (UInt64 × Fin 512)) : Prop where
  kept : Kept m m' l pt X
  lookup : ∀ va', Vm.lookup m' va' l pt = Vm.lookup m va' l pt
  find : ∀ p, r = some p → Vm.find m' va l pt = some p

/-- The walk went on at table `c` below the entry, after the entry was made to point to it in `m₁`. -/
theorem Walked.up {m1 : Mem} {c : UInt64} {r : Option (UInt64 × Fin 512)} (hT : Tree m (l + 1) pt X)
    (hpage : ∀ j, j ≠ PX (l + 1) va → m1.page pt j = m.page pt j)
    (hagree : Agree m m1 (X + rest (below m l pt) (PX (l + 1) va)))
    (hc : IsPage c) (hentry : m1.page pt (PX (l + 1) va) = PA2PTE c ||| PTE_V)
    (hbelow : tabs m1 l c + ↑m1.free = below m l pt (PX (l + 1) va) + ↑m.free)
    (hlook : ∀ va', PX (l + 1) va' = PX (l + 1) va →
      Vm.lookup m va' (l + 1) pt = Vm.lookup m1 va' l c)
    (hW : Walked m1 m' l c va (X + pt ::ₘ rest (below m l pt) (PX (l + 1) va)) r) :
    Walked m m' (l + 1) pt va X r := by
  obtain ⟨hK, hW, hfind⟩ := hW
  have hpt : m'.page pt = m1.page pt := hK.agree pt (by simp)
  have hpage' : ∀ j, j ≠ PX (l + 1) va → m'.page pt j = m.page pt j := by
    intro j hj
    rw [hpt]
    exact hpage j hj
  have hrest : Agree m m' (rest (below m l pt) (PX (l + 1) va)) :=
    (hagree.mono (subset_of_le (le_add_left _ _))).trans
      (hK.agree.mono fun q hq => by simp [hq])
  have hX : Agree m m' X :=
    (hagree.mono (subset_of_le (le_add_right _ _))).trans
      (hK.agree.mono fun q hq => by simp [hq])
  have hchild : child m' pt (PX (l + 1) va) = some c := by
    have hv : Has (m'.page pt (PX (l + 1) va)) PTE_V := by
      rw [hpt, hentry]
      exact (has_PA2PTE (by decide) (by decide)).mpr (by decide)
    rw [child, if_pos hv, hpt, hentry, PTE2PA_PA2PTE hc (by decide)]
  refine ⟨Kept.of_entry hT hpage' hrest hX ?_ ?_ hK.good, ?_, ?_⟩
  · rw [below_of_child hchild, hK.pages, hbelow]
  · intro _
    exact ⟨c, hc, (congrFun hpt _).trans hentry, hK.shape⟩
  · intro va'
    by_cases hva : PX (l + 1) va' = PX (l + 1) va
    · rw [hlook va' hva, lookup_succ, hva, hchild, ← hW va']
      rfl
    · exact lookup_of_entry hpage' hrest hva
  · intro p hp
    rw [Vm.find, hchild]
    exact hfind p hp

theorem walkFrom_after (va : UInt64) (hT : Tree m l pt X) :
    After (walkFrom va true l pt) (fun r m' => Walked m m' l pt va X r) m := by
  induction l generalizing m pt X with
  | zero => exact ⟨hT.kept, fun _ => rfl, fun p hp => hp⟩
  | succ l ih =>
    rw [walkFrom, After, ensures_bind, ensures_gets]
    by_cases hv : Has (m.page pt (PX (l + 1) va)) PTE_V
    · rw [if_pos hv]
      obtain ⟨hchild, hpage, hentry, hsub⟩ := hT.below hv rfl
      refine ensures_mono (ih hsub) fun r m' hW => ?_
      refine Walked.up hT (fun _ _ => rfl) (.refl m _) hpage hentry ?_ ?_ hW
      · rw [below_of_child hchild]
      · intro va' hva
        rw [lookup_succ, hva, hchild]
        rfl
    · rw [if_neg hv, if_pos rfl, ensures_bind]
      refine kalloc_after ?_ ?_
      · exact fun _ => ⟨hT.kept, fun _ => rfl, nofun⟩
      · intro pg rest' hfree
        simp only [ensures_bind, ensures_modify]
        obtain ⟨hnew, hnewX, -, hpage⟩ := nodup_free_tail hT hfree
        have hne : pt ≠ pg := fun heq => hnew (heq ▸ mem_tabs_self m (l + 1) pt)
        have hnone : child m pt (PX (l + 1) va) = none := if_neg hv
        obtain ⟨htabs, -, hlook⟩ := empty_tabs (hang_page_new hne) l
        refine ensures_mono (ih (hT.hang hfree hv)) fun r m' hW => ?_
        refine Walked.up hT (fun j hj => hang_page_other hne hj) ?_ hpage ?_ ?_ ?_ hW
        · intro q hq
          have hqpt : q ≠ pt := fun heq => hT.root_notMem _ (heq ▸ hq)
          rw [tabs_succ m l pt (PX (l + 1) va)] at hnew
          refine hang_page_of_ne hqpt ?_
          rintro rfl
          simp only [mem_cons, mem_add, not_or] at hnew hq
          tauto
        · rw [Mem.hang, setWord_page_self]
        · rw [htabs, below_of_none hnone, hfree, ← cons_coe, zero_add]
          rfl
        · intro va' hva
          rw [lookup_succ, hva, hnone, hlook]
          rfl

/-! ## Freeing the tables -/

/-- The loop of `freewalk` before entry `n`: the entries before it are clear and had no leaves. -/
structure Clearing (m m' : Mem) (l : Nat) (pt : UInt64) (X : Multiset UInt64) (n : Nat) : Prop where
  kept : Kept m m' l pt X
  clear : ∀ j : Fin 512, j.val < n → ¬ Has (m'.page pt j) PTE_V
  done : ∀ va, (PX l va).val < n → Vm.lookup m va l pt = none
  todo : ∀ va, n ≤ (PX l va).val → Vm.lookup m' va l pt = Vm.lookup m va l pt

theorem Clearing.skip (h : Clearing m m' l pt X i.val) (hinv : ¬ Has (m'.page pt i) PTE_V) :
    Clearing m m' l pt X (i.val + 1) := by
  refine ⟨h.kept, ?_, ?_, fun va hva => h.todo va (by omega)⟩
  · intro j hj
    rcases Nat.lt_or_ge j.val i.val with hlt | hge
    · exact h.clear j hlt
    · obtain rfl : j = i := Fin.ext (by omega)
      exact hinv
  · intro va hva
    rcases Nat.lt_or_ge (PX l va).val i.val with hlt | hge
    · exact h.done va hlt
    · have hi : PX l va = i := Fin.ext (by omega)
      rw [← h.todo va hge]
      exact lookup_of_invalid (hi ▸ hinv)

/-- The tables below an entry have been freed and the entry is cleared. -/
theorem Clearing.drop {m1 : Mem} {c : UInt64} (h : Clearing m m' (l + 1) pt X i.val)
    (hT : Tree m (l + 1) pt X) (hchild : child m' pt i = some c)
    (hfree : (m1.free : Multiset UInt64) = tabs m' l c + ↑m'.free)
    (hagree : Agree m' m1 (X + pt ::ₘ rest (below m' l pt) i))
    (hlook : ∀ va, Vm.lookup m' va l c = none) (hgood : ∀ pg ∈ m1.free, IsPage pg) :
    Clearing m (m1.setWord pt i 0) (l + 1) pt X (i.val + 1) := by
  have hT' := h.kept.tree hT
  have hpt : m1.page pt = m'.page pt := hagree pt (by simp)
  have hroot := hT'.root_notMem i
  simp only [mem_add, not_or] at hroot
  have hother : ∀ j, j ≠ i → (m1.setWord pt i 0).page pt j = m'.page pt j := by
    intro j hj
    rw [setWord_page_other hj, hpt]
  have hzero : ¬ Has ((m1.setWord pt i 0).page pt i) PTE_V := by
    rw [setWord_page_self]
    decide
  have hrest : Agree m' (m1.setWord pt i 0) (rest (below m' l pt) i) :=
    (hagree.mono fun q hq => by simp [hq]).trans (.setWord hroot.2)
  have hX : Agree m' (m1.setWord pt i 0) X :=
    (hagree.mono fun q hq => by simp [hq]).trans (.setWord hroot.1)
  have hK : Kept m' (m1.setWord pt i 0) (l + 1) pt X := by
    refine Kept.of_entry hT' hother hrest hX ?_ (fun hv => absurd hv hzero) hgood
    rw [below_of_none (if_neg hzero), below_of_child hchild, zero_add]
    exact hfree
  refine ⟨h.kept.trans hK, ?_, ?_, ?_⟩
  · intro j hj
    rcases eq_or_ne j i with rfl | hji
    · exact hzero
    · rw [hother j hji]
      have hne : j.val ≠ i.val := fun heq => hji (Fin.ext heq)
      exact h.clear j (by omega)
  · intro va hva
    rcases Nat.lt_or_ge (PX (l + 1) va).val i.val with hlt | hge
    · exact h.done va hlt
    · have hi : PX (l + 1) va = i := Fin.ext (by omega)
      rw [← h.todo va hge, lookup_succ, hi, hchild]
      exact hlook va
  · intro va hva
    have hne : PX (l + 1) va ≠ i := fun heq => by
      rw [heq] at hva
      omega
    rw [lookup_of_entry hother hrest hne]
    exact h.todo va (by omega)

/-- `freewalk` frees the tables and nothing else, and returns only if there was no leaf. -/
structure Freed (m m' : Mem) (l : Nat) (pt : UInt64) (X : Multiset UInt64) : Prop where
  free : (m'.free : Multiset UInt64) = tabs m l pt + ↑m.free
  agree : Agree m m' X
  empty : ∀ va, Vm.lookup m va l pt = none
  good : ∀ pg ∈ m'.free, IsPage pg

theorem Clearing.kfree_after (h : Clearing m m' l pt X 512) (hT : Tree m l pt X) :
    After (kfree pt) (fun _ m'' => Freed m m'' l pt X) m' := by
  refine Vm.kfree_after fun hpage => ?_
  have htabs : tabs m' l pt = {pt} := tabs_of_invalid fun i => h.clear i i.isLt
  have hnot : pt ∉ X := by
    have hnd := (h.kept.tree hT).nodup
    rw [htabs, add_assoc, singleton_add] at hnd
    have hnot := (nodup_cons.mp hnd).1
    simp only [mem_add, not_or] at hnot
    exact hnot.2
  refine ⟨?_, h.kept.agree.trans (.fill hnot), fun va => h.done va (PX l va).isLt, ?_⟩
  · rw [← h.kept.pages, htabs, release_free]
  · intro q hq
    rcases List.mem_cons.mp hq with rfl | hq
    · exact hpage
    · exact h.kept.good q hq

theorem freewalk_after (hT : Tree m l pt X) : After (freewalk (l + 1) pt) (fun _ m' => Freed m m' l pt X) m := by
  induction l generalizing m pt X with
  | zero =>
    rw [freewalk]
    refine ensures_seq (ensures_loop (fun n m' => Clearing m m' 0 pt X n) ?_ ?_) fun _ m' h =>
      h.kfree_after hT
    · intro n m' _ hn h
      have hi : (Fin.ofNat 512 n).val = n := Nat.mod_eq_of_lt (by omega)
      rw [ensures_bind, ensures_gets]
      by_cases hv : Has (m'.page pt (Fin.ofNat 512 n)) PTE_V
      · rw [if_neg fun hptr => hptr.2 (h.kept.shape _ hv), if_pos hv]
        trivial
      · rw [if_neg fun hptr => hv hptr.1, if_neg hv]
        have := @Clearing.skip m m' 0 pt (Fin.ofNat 512 n) X (hi.symm ▸ h) hv
        rwa [hi] at this
    · exact ⟨hT.kept, fun j hj => absurd hj (by omega), fun va hva => absurd hva (by omega), fun va _ => rfl⟩
  | succ l ih =>
    rw [freewalk]
    refine ensures_seq (ensures_loop (fun n m' => Clearing m m' (l + 1) pt X n) ?_ ?_) fun _ m' h =>
      h.kfree_after hT
    · intro n m' _ hn h
      have hi : (Fin.ofNat 512 n).val = n := Nat.mod_eq_of_lt (by omega)
      rw [ensures_bind, ensures_gets]
      by_cases hv : Has (m'.page pt (Fin.ofNat 512 n)) PTE_V
      · by_cases hleaf : Has (m'.page pt (Fin.ofNat 512 n)) (PTE_R ||| PTE_W ||| PTE_X)
        · rw [if_neg fun hptr => hptr.2 hleaf, if_pos hv]
          trivial
        · rw [if_pos ⟨hv, hleaf⟩]
          obtain ⟨hchild, -, -, hsub⟩ := (h.kept.tree hT).below hv rfl
          refine ensures_seq (ih hsub) fun _ m1 hF => ?_
          rw [ensures_modify]
          have := @Clearing.drop m m' l pt (Fin.ofNat 512 n) X m1 _ (hi.symm ▸ h) hT hchild hF.free
            hF.agree hF.empty hF.good
          rwa [hi] at this
      · rw [if_neg fun hptr => hv hptr.1, if_neg hv]
        have := @Clearing.skip m m' (l + 1) pt (Fin.ofNat 512 n) X (hi.symm ▸ h) hv
        rwa [hi] at this
    · exact ⟨hT.kept, fun j hj => absurd hj (by omega), fun va hva => absurd hva (by omega), fun va _ => rfl⟩

end Xv6.Vm
