import Mathlib.Algebra.BigOperators.Group.Finset.Basic
import Mathlib.Algebra.Order.BigOperators.Group.Finset
import Mathlib.Algebra.Order.Group.Multiset
import Mathlib.Data.Fintype.BigOperators

/-!
# Multisets put together from parts

What is held by a finite number of holders, as one multiset: `total f` of all of them, `rest f i` of all
but one. Both are irreducible, so that a sum over a large type is never unfolded.
-/

namespace Xv6.Data

variable {ι α : Type} [Fintype ι] {f g : ι → Multiset α} {i j : ι}

@[irreducible]
def total (f : ι → Multiset α) : Multiset α := ∑ i, f i

theorem mem_total {a : α} : a ∈ total f ↔ ∃ i, a ∈ f i := by
  rw [total, Multiset.mem_sum]
  simp

theorem total_congr (h : ∀ j, f j = g j) : total f = total g := congrArg total (funext h)

theorem total_eq_zero (h : ∀ j, f j = 0) : total f = 0 := by
  rw [total]
  exact Finset.sum_eq_zero fun j _ => h j

theorem total_add (f g : ι → Multiset α) : total (fun j => f j + g j) = total f + total g := by
  rw [total, total, total]
  exact Finset.sum_add_distrib

theorem total_eq_single (h : ∀ j, j ≠ i → f j = 0) : total f = f i := by
  rw [total]
  exact Finset.sum_eq_single i (fun j _ hj => h j hj) fun hi => absurd (Finset.mem_univ i) hi

variable [DecidableEq ι]

@[irreducible]
def rest (f : ι → Multiset α) (i : ι) : Multiset α := ∑ j ∈ Finset.univ.erase i, f j

theorem total_eq_add_rest (f : ι → Multiset α) (i : ι) : total f = f i + rest f i := by
  rw [total, rest]
  exact (Finset.add_sum_erase _ f (Finset.mem_univ i)).symm

theorem le_rest (hj : j ≠ i) : f j ≤ rest f i := by
  rw [rest]
  exact Finset.single_le_sum (fun _ _ => Multiset.zero_le _)
    (Finset.mem_erase.mpr ⟨hj, Finset.mem_univ j⟩)

theorem rest_congr (h : ∀ j, j ≠ i → f j = g j) : rest f i = rest g i := by
  rw [rest, rest]
  exact Finset.sum_congr rfl fun j hj => h j (Finset.mem_erase.mp hj).1

end Xv6.Data
