import Mathlib.Tactic.Positivity
import Mathlib.Tactic.Ring

/-!
# The bytes of a machine word

A word of 64 bits is eight bytes, the lowest one first. A byte that is put into a word is read back, and the other
bytes stay.
-/

namespace Xv6.Data

/-- The byte at position `i`. -/
def byteOf (w : UInt64) (i : Nat) : UInt8 := UInt8.ofNat (w.toNat / 256 ^ i)

/-- The word with another byte at position `i`. -/
def putByte (w : UInt64) (i : Nat) (x : UInt8) : UInt64 :=
  UInt64.ofNat (w.toNat / 256 ^ (i + 1) * 256 ^ (i + 1) + (x.toNat * 256 ^ i + w.toNat % 256 ^ i))

variable {w : UInt64} {i j : Nat} {x : UInt8}

theorem byteOf_eq_iff {w' : UInt64} (h : w.toNat / 256 ^ j % 256 = w'.toNat / 256 ^ j % 256) :
    byteOf w j = byteOf w' j := by
  refine UInt8.toNat_inj.mp ?_
  rw [byteOf, byteOf, UInt8.toNat_ofNat', UInt8.toNat_ofNat']
  exact h

theorem low_lt (w : UInt64) (i : Nat) (x : UInt8) : x.toNat * 256 ^ i + w.toNat % 256 ^ i < 256 ^ (i + 1) := by
  have hx : x.toNat + 1 ≤ 256 := x.toNat_lt
  have hlow : w.toNat % 256 ^ i < 256 ^ i := Nat.mod_lt _ (by positivity)
  calc x.toNat * 256 ^ i + w.toNat % 256 ^ i < (x.toNat + 1) * 256 ^ i := by
        rw [Nat.add_mul, Nat.one_mul]
        omega
    _ ≤ 256 * 256 ^ i := Nat.mul_le_mul_right _ hx
    _ = 256 ^ (i + 1) := (Nat.pow_succ' ..).symm

theorem toNat_putByte (hi : i < 8) : (putByte w i x).toNat =
    w.toNat / 256 ^ (i + 1) * 256 ^ (i + 1) + (x.toNat * 256 ^ i + w.toNat % 256 ^ i) := by
  rw [putByte, UInt64.toNat_ofNat']
  refine Nat.mod_eq_of_lt ?_
  have hlow := low_lt w i x
  have htop : 256 ^ (7 - i) * 256 ^ (i + 1) = 2 ^ 64 := by
    have hexp : 7 - i + (i + 1) = 8 := by omega
    rw [← Nat.pow_add, hexp]
    rfl
  have hw : w.toNat < 256 ^ (7 - i) * 256 ^ (i + 1) := by
    rw [htop]
    exact w.toNat_lt
  have hhigh : w.toNat / 256 ^ (i + 1) + 1 ≤ 256 ^ (7 - i) := (Nat.div_lt_iff_lt_mul (by positivity)).mpr hw
  calc w.toNat / 256 ^ (i + 1) * 256 ^ (i + 1) + (x.toNat * 256 ^ i + w.toNat % 256 ^ i)
      < (w.toNat / 256 ^ (i + 1) + 1) * 256 ^ (i + 1) := by
        rw [Nat.add_mul, Nat.one_mul]
        omega
    _ ≤ 256 ^ (7 - i) * 256 ^ (i + 1) := Nat.mul_le_mul_right _ hhigh
    _ = 2 ^ 64 := htop

theorem byteOf_putByte_self (hi : i < 8) : byteOf (putByte w i x) i = x := by
  refine UInt8.toNat_inj.mp ?_
  have hpos : 0 < 256 ^ i := by positivity
  have hlow : w.toNat % 256 ^ i < 256 ^ i := Nat.mod_lt _ hpos
  have hx := x.toNat_lt
  rw [byteOf, UInt8.toNat_ofNat', toNat_putByte hi, Nat.pow_succ', ← Nat.mul_assoc, ← Nat.add_assoc, ← Nat.add_mul,
    Nat.mul_comm, Nat.mul_add_div hpos, Nat.div_eq_of_lt hlow]
  omega

theorem putByte_div (hi : i < 8) : (putByte w i x).toNat / 256 ^ (i + 1) = w.toNat / 256 ^ (i + 1) := by
  rw [toNat_putByte hi, Nat.mul_comm, Nat.mul_add_div (by positivity), Nat.div_eq_of_lt (low_lt w i x), Nat.add_zero]

theorem putByte_mod (hi : i < 8) : (putByte w i x).toNat % 256 ^ i = w.toNat % 256 ^ i := by
  have hsplit : w.toNat / 256 ^ (i + 1) * 256 ^ (i + 1) + (x.toNat * 256 ^ i + w.toNat % 256 ^ i) =
      w.toNat % 256 ^ i + 256 ^ i * (w.toNat / 256 ^ (i + 1) * 256 + x.toNat) := by ring
  rw [toNat_putByte hi, hsplit, Nat.add_mul_mod_self_left, Nat.mod_mod]

theorem byteOf_putByte_of_ne (hi : i < 8) (hj : j ≠ i) : byteOf (putByte w i x) j = byteOf w j := by
  refine byteOf_eq_iff ?_
  rcases Nat.lt_or_gt_of_ne hj with hlt | hgt
  · have hdvd : 256 ^ j * 256 ∣ 256 ^ i := by
      rw [← Nat.pow_succ]
      exact Nat.pow_dvd_pow 256 hlt
    rw [← Nat.mod_mul_right_div_self, ← Nat.mod_mul_right_div_self, ← Nat.mod_mod_of_dvd _ hdvd, putByte_mod hi,
      Nat.mod_mod_of_dvd _ hdvd]
  · obtain ⟨k, rfl⟩ := Nat.exists_eq_add_of_lt hgt
    have hexp : i + k + 1 = i + 1 + k := by omega
    rw [hexp, Nat.pow_add, ← Nat.div_div_eq_div_mul, ← Nat.div_div_eq_div_mul, putByte_div hi]

end Xv6.Data
