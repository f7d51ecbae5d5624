import Mathlib.Tactic.Abel
import Xv6.Data.Parts
import Xv6.Vm.Model

/-!
# The pages of a page table

A table of level `l` is read as a tree: `tabs` are the pages of its tables, as a multiset, so that a
page that occurs twice is seen, and `lookup` gives the leaf for an address. A write to a page outside of
the tree changes neither; a write to the entry of an address changes the leaf for that address only,
as long as no page occurs twice.
-/

namespace Xv6.Vm

open Data Multiset

def child (m : Mem) (pt : UInt64) (i : Fin 512) : Option UInt64 :=
  if Has (m.page pt i) PTE_V then some (PTE2PA (m.page pt i)) else none

/-- The pages of the tables of a tree. -/
def tabs (m : Mem) : Nat → UInt64 → Multiset UInt64
  | 0, pt => {pt}
  | l + 1, pt => pt ::ₘ total fun i => (child m pt i).elim 0 (tabs m l)

def find (m : Mem) (va : UInt64) : Nat → UInt64 → Option (UInt64 × Fin 512)
  | 0, pt => some (pt, PX 0 va)
  | l + 1, pt => (child m pt (PX (l + 1) va)).bind (find m va l)

def lookup (m : Mem) (va : UInt64) (l : Nat) (pt : UInt64) : Option UInt64 :=
  (find m va l pt).bind fun p => if Has (m.page p.1 p.2) PTE_V then some (m.page p.1 p.2) else none

/-- The valid entries of the upper levels are pointers to tables, those of the last level are leaves. -/
def Shape (m : Mem) : Nat → UInt64 → Prop
  | 0, pt => ∀ i, Has (m.page pt i) PTE_V → Has (m.page pt i) (PTE_R ||| PTE_W ||| PTE_X)
  | l + 1, pt => ∀ i, Has (m.page pt i) PTE_V →
      ∃ c, IsPage c ∧ m.page pt i = PA2PTE c ||| PTE_V ∧ Shape m l c

/-- The pages of `S` hold the same in both memories. -/
def Agree (m m' : Mem) (S : Multiset UInt64) : Prop := ∀ pg ∈ S, m'.page pg = m.page pg

variable {m m' m'' : Mem} {l : Nat} {pt pg va va' t c w : UInt64} {i j : Fin 512} {S T : Multiset UInt64}

theorem Agree.mono (h : Agree m m' T) (hS : S ⊆ T) : Agree m m' S := fun pg hpg => h pg (hS hpg)

theorem Agree.refl (m : Mem) (S : Multiset UInt64) : Agree m m S := fun _ _ => rfl

theorem Agree.trans (h : Agree m m' S) (h' : Agree m' m'' S) : Agree m m'' S :=
  fun pg hpg => (h' pg hpg).trans (h pg hpg)

/-! ## One entry and the others -/

def below (m : Mem) (l : Nat) (pt : UInt64) (i : Fin 512) : Multiset UInt64 :=
  (child m pt i).elim 0 (tabs m l)

theorem tabs_eq_cons (m : Mem) (l : Nat) (pt : UInt64) : tabs m (l + 1) pt = pt ::ₘ total (below m l pt) := by
  rw [tabs]
  rfl

theorem tabs_succ (m : Mem) (l : Nat) (pt : UInt64) (i : Fin 512) :
    tabs m (l + 1) pt = pt ::ₘ (below m l pt i + rest (below m l pt) i) := by
  rw [tabs_eq_cons, total_eq_add_rest (below m l pt) i]

theorem below_of_child (hc : child m pt i = some c) : below m l pt i = tabs m l c := by
  rw [below, hc, Option.elim_some]

theorem below_of_none (hc : child m pt i = none) : below m l pt i = 0 := by
  rw [below, hc, Option.elim_none]

theorem mem_tabs_self (m : Mem) (l : Nat) (pt : UInt64) : pt ∈ tabs m l pt := by
  cases l with
  | zero => exact mem_singleton_self pt
  | succ l =>
    rw [tabs_eq_cons]
    exact mem_cons_self pt _

theorem tabs_child_subset (hc : child m pt i = some c) : tabs m l c ⊆ tabs m (l + 1) pt := by
  rw [tabs_succ m l pt i, below_of_child hc]
  intro pg hpg
  exact mem_cons_of_mem (mem_add.mpr (.inl hpg))

theorem tabs_other_subset (hj : j ≠ i) (hc : child m pt j = some c) : tabs m l c ⊆ rest (below m l pt) i := by
  have h := @le_rest _ _ _ (below m l pt) _ _ _ hj
  rw [below_of_child hc] at h
  exact subset_of_le h

theorem child_congr (h : m'.page pt = m.page pt) (i : Fin 512) : child m' pt i = child m pt i := by
  unfold child
  rw [h]

/-! ## Trees that are not written to -/

structure Same (m m' : Mem) (l : Nat) (pt : UInt64) : Prop where
  tabs : Vm.tabs m' l pt = Vm.tabs m l pt
  find : ∀ va, Vm.find m' va l pt = Vm.find m va l pt
  lookup : ∀ va, Vm.lookup m' va l pt = Vm.lookup m va l pt
  shape : Shape m l pt → Shape m' l pt

theorem find_mem {p : UInt64 × Fin 512} (h : find m va l pt = some p) : p.1 ∈ tabs m l pt := by
  induction l generalizing pt with
  | zero =>
    cases h
    exact mem_tabs_self m 0 pt
  | succ l ih =>
    rw [find] at h
    obtain ⟨c, hc, hf⟩ := Option.bind_eq_some_iff.mp h
    exact tabs_child_subset hc (ih hf)

theorem lookup_succ (m : Mem) (va : UInt64) (l : Nat) (pt : UInt64) :
    lookup m va (l + 1) pt = (child m pt (PX (l + 1) va)).bind fun c => lookup m va l c := by
  unfold lookup
  rw [find]
  cases child m pt (PX (l + 1) va) <;> rfl

theorem Same.of_agree (h : Agree m m' (Vm.tabs m l pt)) : Same m m' l pt := by
  induction l generalizing pt with
  | zero =>
    have hpt : m'.page pt = m.page pt := h pt (mem_tabs_self m 0 pt)
    refine ⟨rfl, fun _ => rfl, ?_, ?_⟩
    · intro va
      simp only [Vm.lookup, Vm.find, Option.bind_some, hpt]
    · intro hs i
      rw [hpt]
      exact hs i
  | succ l ih =>
    have hpt : m'.page pt = m.page pt := h pt (mem_tabs_self m (l + 1) pt)
    have hchild := child_congr hpt
    have hsub : ∀ i c, child m pt i = some c → Same m m' l c :=
      fun i c hc => ih (h.mono (tabs_child_subset hc))
    refine ⟨?_, ?_, ?_, ?_⟩
    · rw [tabs_eq_cons, tabs_eq_cons]
      refine congrArg _ (total_congr fun i => ?_)
      cases hc : child m pt i with
      | none => rw [below_of_none hc, below_of_none ((hchild i).trans hc)]
      | some c => rw [below_of_child hc, below_of_child ((hchild i).trans hc), (hsub i c hc).tabs]
    · intro va
      simp only [Vm.find, hchild]
      cases hc : child m pt (PX (l + 1) va) with
      | none => rfl
      | some c => exact (hsub _ c hc).find va
    · intro va
      rw [lookup_succ, lookup_succ, hchild]
      cases hc : child m pt (PX (l + 1) va) with
      | none => rfl
      | some c => exact (hsub _ c hc).lookup va
    · intro hs i hv
      rw [hpt] at hv ⊢
      obtain ⟨c, hpage, he, hsc⟩ := hs i hv
      refine ⟨c, hpage, he, (hsub i c ?_).shape hsc⟩
      rw [child, if_pos hv, he, PTE2PA_PA2PTE hpage (by decide)]

/-- The entries of `pt` other than `i` and what is below them are the same. -/
structure SameOthers (m m' : Mem) (l : Nat) (pt : UInt64) (i : Fin 512) : Prop where
  page : ∀ j, j ≠ i → m'.page pt j = m.page pt j
  child : ∀ j, j ≠ i → Vm.child m' pt j = Vm.child m pt j
  same : ∀ j c, j ≠ i → Vm.child m pt j = some c → Same m m' l c
  rest : Data.rest (below m' l pt) i = Data.rest (below m l pt) i

theorem SameOthers.of_agree (hpage : ∀ j, j ≠ i → m'.page pt j = m.page pt j)
    (h : Agree m m' (Data.rest (below m l pt) i)) : SameOthers m m' l pt i := by
  have hchild : ∀ j, j ≠ i → Vm.child m' pt j = Vm.child m pt j := by
    intro j hj
    unfold Vm.child
    rw [hpage j hj]
  have hsame : ∀ j c, j ≠ i → Vm.child m pt j = some c → Same m m' l c :=
    fun j c hj hc => .of_agree (h.mono (tabs_other_subset hj hc))
  refine ⟨hpage, hchild, hsame, ?_⟩
  refine rest_congr fun j hj => ?_
  cases hc : Vm.child m pt j with
  | none => rw [below_of_none hc, below_of_none ((hchild j hj).trans hc)]
  | some c => rw [below_of_child hc, below_of_child ((hchild j hj).trans hc), (hsame j c hj hc).tabs]

/-! ## Writing the entry of an address -/

theorem setWord_page_self (m : Mem) (pt : UInt64) (i : Fin 512) (w : UInt64) : (m.setWord pt i w).page pt i = w := by
  simp [Mem.setWord]

theorem setWord_page_other (hj : j ≠ i) : (m.setWord pt i w).page pt j = m.page pt j := by
  simp [Mem.setWord, hj]

theorem setWord_page_of_ne (h : pg ≠ pt) : (m.setWord pt i w).page pg = m.page pg := by
  simp [Mem.setWord, h]

theorem Agree.write (h : pt ∉ S) (w : Fin 512 → UInt64) :
    Agree m { m with page := Function.update m.page pt w } S := by
  intro q hq
  have hne : q ≠ pt := fun heq => h (heq ▸ hq)
  simp [hne]

theorem Agree.setWord (h : pt ∉ S) : Agree m (m.setWord pt i w) S := .write h _

theorem Agree.fill (h : pt ∉ S) : Agree m (m.fill pt w) S := .write h _

/-- The two addresses have the same indices down from level `l`. -/
def SamePage (l : Nat) (va va' : UInt64) : Prop := ∀ k, k ≤ l → PX k va' = PX k va

/-- A page of the tables below an entry is not the table itself and not below another entry. -/
theorem nodup_tabs_succ (h : (tabs m (l + 1) pt).Nodup) (hc : child m pt i = some c) :
    (tabs m l c).Nodup ∧ ∀ q ∈ tabs m l c, q ≠ pt ∧ q ∉ rest (below m l pt) i := by
  rw [tabs_succ m l pt i, below_of_child hc] at h
  obtain ⟨hpt, hnd⟩ := nodup_cons.mp h
  obtain ⟨hc, -, hdisj⟩ := nodup_add.mp hnd
  refine ⟨hc, fun q hq => ⟨?_, ?_⟩⟩
  · intro heq
    exact hpt (heq ▸ mem_add.mpr (.inl hq))
  · exact disjoint_left.mp hdisj hq

/-- What is left of a tree when the entry of `va` is written. -/
structure Wrote (m m' : Mem) (l : Nat) (pt va w : UInt64) : Prop where
  tabs : Vm.tabs m' l pt = Vm.tabs m l pt
  find : ∀ va', Vm.find m' va' l pt = Vm.find m va' l pt
  other : ∀ va', ¬ SamePage l va va' → Vm.lookup m' va' l pt = Vm.lookup m va' l pt
  self : ∀ va', SamePage l va va' → Vm.lookup m' va' l pt = if Has w PTE_V then some w else none
  shape : Shape m l pt → (Has w PTE_V → Has w (PTE_R ||| PTE_W ||| PTE_X)) → Shape m' l pt

theorem Wrote.of_find (hnd : (Vm.tabs m l pt).Nodup)
    (hf : Vm.find m va l pt = some (t, i)) : Wrote m (m.setWord t i w) l pt va w := by
  induction l generalizing pt with
  | zero =>
    cases hf
    refine ⟨rfl, fun _ => rfl, ?_, ?_, ?_⟩
    · intro va' hva'
      have hne : PX 0 va' ≠ PX 0 va := fun heq => hva' fun k hk => by
        obtain rfl : k = 0 := by omega
        exact heq
      simp only [Vm.lookup, Vm.find, Option.bind_some, setWord_page_other hne]
    · intro va' hva'
      simp only [Vm.lookup, Vm.find, Option.bind_some, hva' 0 (Nat.le_refl 0), setWord_page_self]
    · intro hs hw j hj
      by_cases hji : j = PX 0 va
      · subst hji
        rw [setWord_page_self] at hj ⊢
        exact hw hj
      · rw [setWord_page_other hji] at hj ⊢
        exact hs j hj
  | succ l ih =>
    obtain ⟨c, hc, hfc⟩ := Option.bind_eq_some_iff.mp hf
    obtain ⟨hndc, hout⟩ := nodup_tabs_succ hnd hc
    obtain ⟨htp, htr⟩ := hout t (find_mem hfc)
    have hpt : (m.setWord t i w).page pt = m.page pt := setWord_page_of_ne htp.symm
    have hchild := child_congr hpt
    have hrest := SameOthers.of_agree (fun j _ => congrFun hpt j) (.setWord htr)
    have hsub := ih hndc hfc
    refine ⟨?_, ?_, ?_, ?_, ?_⟩
    · rw [tabs_succ _ l pt (PX (l + 1) va), tabs_succ m l pt (PX (l + 1) va), hrest.rest,
        below_of_child hc, below_of_child ((hchild _).trans hc), hsub.tabs]
    · intro va'
      simp only [Vm.find, hchild]
      by_cases hva : PX (l + 1) va' = PX (l + 1) va
      · rw [hva, hc]
        exact hsub.find va'
      · cases hc' : child m pt (PX (l + 1) va') with
        | none => rfl
        | some c' => exact (hrest.same _ c' hva hc').find va'
    · intro va' hva'
      rw [lookup_succ, lookup_succ, hchild]
      by_cases hva : PX (l + 1) va' = PX (l + 1) va
      · rw [hva, hc]
        refine hsub.other va' fun h => hva' fun k hk => ?_
        rcases Nat.lt_or_ge l k with hlk | hlk
        · obtain rfl : k = l + 1 := by omega
          exact hva
        · exact h k hlk
      · cases hc' : child m pt (PX (l + 1) va') with
        | none => rfl
        | some c' => exact (hrest.same _ c' hva hc').lookup va'
    · intro va' hva'
      rw [lookup_succ, hchild, hva' (l + 1) (Nat.le_refl _), hc]
      exact hsub.self va' fun k hk => hva' k (by omega)
    · intro hs hw j hj
      rw [hpt] at hj ⊢
      obtain ⟨c', hpage, he, hsc⟩ := hs j hj
      have hc' : child m pt j = some c' := by
        rw [child, if_pos hj, he, PTE2PA_PA2PTE hpage (by decide)]
      refine ⟨c', hpage, he, ?_⟩
      by_cases hji : j = PX (l + 1) va
      · subst hji
        obtain rfl : c = c' := Option.some.inj (hc.symm.trans hc')
        exact hsub.shape hsc hw
      · exact (hrest.same j c' hji hc').shape hsc

end Xv6.Vm
