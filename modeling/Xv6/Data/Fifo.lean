import Mathlib.Data.List.Basic
import Mathlib.Logic.Function.Basic
import Mathlib.Data.Nat.ModEq

/-!
# Bounded queues with free-running counters

A queue of at most `cap` elements in an array of `cap` cells, addressed by two 32-bit counters that
are only ever increased: the next element is read at `r % cap` and written at `w % cap`. The counters
wrap at `2 ^ 32`; the cells they address run on over the wrap because `cap` divides `2 ^ 32`.
-/

namespace Xv6.Data

/-- The counters `r` and `w` delimit the queue `q` in the cells. -/
structure Window {α : Type} (cap : Nat) (cells : Nat → α) (r w : UInt32) (q : List α) : Prop where
  fits : q.length ≤ cap
  count : w = r + UInt32.ofNat q.length
  get : ∀ j x, q[j]? = some x → cells ((r.toNat + j) % cap) = x

namespace Window

variable {α : Type} {cap : Nat} {cells : Nat → α} {r w : UInt32} {q : List α} {x : α}

theorem nil (cells : Nat → α) (r : UInt32) : Window cap cells r r [] where
  fits := Nat.zero_le _
  count := by simp
  get := by simp

section Bounded

variable (hcap : cap < 2 ^ 32)

include hcap

theorem toNat_sub (h : Window cap cells r w q) : (w - r).toNat = q.length := by
  have hlen : q.length < 2 ^ 32 := lt_of_le_of_lt h.fits hcap
  rw [h.count, UInt32.add_comm, UInt32.add_sub_cancel, UInt32.toNat_ofNat']
  exact Nat.mod_eq_of_lt hlen

theorem empty_iff (h : Window cap cells r w q) : r = w ↔ q = [] := by
  have hsub := h.toNat_sub hcap
  constructor
  · intro he
    rw [he, UInt32.sub_self] at hsub
    exact List.length_eq_zero_iff.mp hsub.symm
  · intro he
    rw [h.count, he]
    simp

theorem full_iff (h : Window cap cells r w q) : w = r + UInt32.ofNat cap ↔ q.length = cap := by
  have hsub := h.toNat_sub hcap
  constructor
  · intro hf
    rw [hf, UInt32.add_comm, UInt32.add_sub_cancel, UInt32.toNat_ofNat',
      Nat.mod_eq_of_lt hcap] at hsub
    exact hsub.symm
  · intro hf
    rw [h.count, hf]

end Bounded

section Dividing

variable (hdvd : cap ∣ 2 ^ 32)

include hdvd

/-- The counter that follows `r` by `n` addresses the cell that follows by `n`. -/
theorem toNat_add_mod (r : UInt32) (n : Nat) : (r + UInt32.ofNat n).toNat % cap = (r.toNat + n) % cap := by
  rw [UInt32.toNat_add, UInt32.toNat_ofNat', Nat.mod_mod_of_dvd _ hdvd, Nat.add_mod,
    Nat.mod_mod_of_dvd _ hdvd, ← Nat.add_mod]

theorem push (h : Window cap cells r w q) (hroom : q.length < cap) (x : α) :
    Window cap (Function.update cells (w.toNat % cap) x) r (w + 1) (q ++ [x]) where
  fits := by
    rw [List.length_append]
    exact hroom
  count := by
    rw [h.count, List.length_append, UInt32.add_assoc, UInt32.ofNat_add]
    rfl
  get := by
    intro j y hj
    have hw : w.toNat % cap = (r.toNat + q.length) % cap := by
      rw [h.count, toNat_add_mod hdvd]
    rw [hw]
    rcases Nat.lt_or_ge j q.length with hlt | hge
    · -- an older element stands in another cell
      rw [List.getElem?_append_left hlt] at hj
      have hne : (r.toNat + j) % cap ≠ (r.toNat + q.length) % cap := by
        intro heq
        have hmod : j ≡ q.length [MOD cap] := Nat.ModEq.add_left_cancel' r.toNat heq
        have := hmod.eq_of_lt_of_lt (hlt.trans hroom) hroom
        omega
      rw [Function.update_of_ne hne]
      exact h.get j y hj
    · have hlast : j = q.length := by
        have := (List.getElem?_eq_some_iff.mp hj).1
        rw [List.length_append, List.length_singleton] at this
        omega
      rw [hlast, List.getElem?_concat_length] at hj
      rw [hlast, Function.update_self]
      exact Option.some.inj hj

theorem pop (h : Window cap cells r w (x :: q)) : cells (r.toNat % cap) = x ∧ Window cap cells (r + 1) w q := by
  refine ⟨?_, ?_, ?_, ?_⟩
  · exact h.get 0 x rfl
  · exact (Nat.le_succ q.length).trans h.fits
  · rw [h.count, List.length_cons, UInt32.add_assoc, Nat.add_comm, UInt32.ofNat_add]
    rfl
  · intro j y hj
    have hcell := h.get (j + 1) y (by simpa using hj)
    have hone : (r + 1).toNat % cap = (r.toNat + 1) % cap := toNat_add_mod hdvd r 1
    rw [Nat.add_mod, hone, ← Nat.add_mod, Nat.add_assoc, Nat.add_comm 1 j]
    exact hcell

end Dividing

end Window

end Xv6.Data
