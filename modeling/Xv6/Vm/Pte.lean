import Mathlib.Data.Nat.Bitwise
import Mathlib.Tactic.Ring
import Xv6.Memlayout

/-!
# Page table entries

The bits of an entry and the macros of `kernel/memlayout.h` that put physical addresses into entries
and take them out, with their meaning as numbers: an entry is `1024` times a page number plus ten bits
of flags.
-/

namespace Xv6.Vm

instance neZero_512 : NeZero 512 := ⟨by decide⟩

def PTE_V : UInt64 := 1
def PTE_R : UInt64 := 2
def PTE_W : UInt64 := 4
def PTE_X : UInt64 := 8
def PTE_U : UInt64 := 16

def PTE2PA (pte : UInt64) : UInt64 := (pte >>> 10) <<< 12

def PA2PTE (pa : UInt64) : UInt64 := (pa >>> 12) <<< 10

def PTE_FLAGS (pte : UInt64) : UInt64 := pte &&& 0x3FF

def PGROUNDDOWN (a : UInt64) : UInt64 := a &&& ~~~ 0xFFF

def PGROUNDUP (a : UInt64) : UInt64 := (a + 0xFFF) &&& ~~~ 0xFFF

/-- The index of `va` in a table of the given level. -/
def PX (level : Nat) (va : UInt64) : Fin 512 := Fin.ofNat 512 (va.toNat / 2 ^ (12 + 9 * level))

def MAKE_SATP (pagetable : UInt64) : UInt64 := (pagetable >>> 12) ||| ((8 : UInt64) <<< 60)

/-- A page address that fits into an entry. -/
def IsPage (a : UInt64) : Prop := a.toNat % 4096 = 0 ∧ a.toNat < 2 ^ 56

def Has (pte flag : UInt64) : Prop := pte &&& flag ≠ 0

instance (pte flag : UInt64) : Decidable (Has pte flag) := inferInstanceAs (Decidable (_ ≠ _))

/-- The entry maps a page. -/
def IsLeaf (pte : UInt64) : Prop := Has pte PTE_V ∧ Has pte (PTE_R ||| PTE_W ||| PTE_X)

instance (pte : UInt64) : Decidable (IsLeaf pte) := inferInstanceAs (Decidable (_ ∧ _))

/-! ## Entries as numbers -/

theorem toNat_PA2PTE (pa : UInt64) : (PA2PTE pa).toNat = pa.toNat / 4096 * 1024 := by
  have hpa := pa.toNat_lt
  have h12 : (12 : UInt64).toNat % 64 = 12 := rfl
  have h10 : (10 : UInt64).toNat % 64 = 10 := rfl
  rw [PA2PTE, UInt64.toNat_shiftLeft, UInt64.toNat_shiftRight, h12, h10, Nat.shiftLeft_eq,
    Nat.shiftRight_eq_div_pow]
  exact Nat.mod_eq_of_lt (by omega)

theorem toNat_PTE2PA {pte : UInt64} (h : pte.toNat < 2 ^ 54) : (PTE2PA pte).toNat = pte.toNat / 1024 * 4096 := by
  have h12 : (12 : UInt64).toNat % 64 = 12 := rfl
  have h10 : (10 : UInt64).toNat % 64 = 10 := rfl
  rw [PTE2PA, UInt64.toNat_shiftLeft, UInt64.toNat_shiftRight, h12, h10, Nat.shiftLeft_eq,
    Nat.shiftRight_eq_div_pow]
  exact Nat.mod_eq_of_lt (by omega)

theorem toNat_PTE_FLAGS (pte : UInt64) : (PTE_FLAGS pte).toNat = pte.toNat % 1024 := by
  rw [PTE_FLAGS, UInt64.toNat_and]
  exact Nat.and_two_pow_sub_one_eq_mod pte.toNat 10

variable {pa f : UInt64}

/-- Flags and page number do not overlap. -/
theorem toNat_PA2PTE_or (hf : f.toNat < 1024) : (PA2PTE pa ||| f).toNat = pa.toNat / 4096 * 1024 + f.toNat := by
  rw [UInt64.toNat_or, toNat_PA2PTE]
  have h : pa.toNat / 4096 * 1024 = (pa.toNat / 4096) <<< 10 := (Nat.shiftLeft_eq _ 10).symm
  rw [h, ← Nat.shiftLeft_add_eq_or_of_lt (by omega : f.toNat < 2 ^ 10)]

theorem PTE2PA_PA2PTE (hpa : IsPage pa) (hf : f.toNat < 1024) : PTE2PA (PA2PTE pa ||| f) = pa := by
  obtain ⟨haligned, hlt⟩ := hpa
  have he := @toNat_PA2PTE_or pa f hf
  refine UInt64.toNat_inj.mp ?_
  rw [toNat_PTE2PA (by omega), he]
  omega

theorem PTE_FLAGS_PA2PTE (hf : f.toNat < 1024) : PTE_FLAGS (PA2PTE pa ||| f) = f := by
  refine UInt64.toNat_inj.mp ?_
  rw [toNat_PTE_FLAGS, toNat_PA2PTE_or hf]
  omega

/-- A flag is one of the ten lowest bits. -/
theorem and_flag {pte flag : UInt64} (hflag : 0x3FF &&& flag = flag) : pte &&& flag = PTE_FLAGS pte &&& flag := by
  rw [PTE_FLAGS, UInt64.and_assoc, hflag]

theorem has_PA2PTE {flag : UInt64} (hf : f.toNat < 1024) (hflag : 0x3FF &&& flag = flag) :
    Has (PA2PTE pa ||| f) flag ↔ Has f flag := by
  unfold Has
  rw [and_flag hflag, PTE_FLAGS_PA2PTE hf]

theorem or_has {x y : UInt64} : Has (x ||| y) f ↔ Has x f ∨ Has y f := by
  have h : (x ||| y) &&& f = (x &&& f) ||| (y &&& f) := by
    refine UInt64.toNat_inj.mp ?_
    simp only [UInt64.toNat_and, UInt64.toNat_or, Nat.and_or_distrib_right]
  unfold Has
  rw [h, Ne, UInt64.or_eq_zero_iff, not_and_or]

/-! ## Rounding to pages -/

/-- The mask of `PGROUNDDOWN` has the bits 12 to 63. -/
theorem testBit_pageMask (i : Nat) :
    (~~~ (0xFFF : UInt64)).toNat.testBit i = (decide (12 ≤ i) && decide (i < 64)) := by
  have hmask : (~~~ (0xFFF : UInt64)).toNat = (2 ^ 52 - 1) <<< 12 := by decide
  rw [hmask, Nat.testBit_shiftLeft, Nat.testBit_two_pow_sub_one]
  rcases Nat.lt_or_ge i 12 with hi | hi
  · simp [Nat.not_le.mpr hi]
  · have hiff : i - 12 < 52 ↔ i < 64 := by omega
    simp [hiff]

theorem toNat_PGROUNDDOWN (a : UInt64) : (PGROUNDDOWN a).toNat = a.toNat / 4096 * 4096 := by
  have hshift : a.toNat / 4096 * 4096 = (a.toNat >>> 12) <<< 12 := by
    rw [Nat.shiftLeft_eq, Nat.shiftRight_eq_div_pow]
  rw [PGROUNDDOWN, UInt64.toNat_and, hshift]
  apply Nat.eq_of_testBit_eq
  intro i
  rw [Nat.testBit_and, testBit_pageMask, Nat.testBit_shiftLeft, Nat.testBit_shiftRight]
  rcases Nat.lt_or_ge i 12 with hi | hi
  · simp [Nat.not_le.mpr hi]
  · rw [Nat.add_sub_cancel' hi]
    rcases Nat.lt_or_ge i 64 with hi' | hi'
    · simp [hi, hi']
    · have hbit : a.toNat.testBit i = false :=
        Nat.testBit_lt_two_pow (Nat.lt_of_lt_of_le a.toNat_lt (Nat.pow_le_pow_right (by omega) hi'))
      simp [hbit]

theorem toNat_PGROUNDUP {a : UInt64} (h : a.toNat < 2 ^ 63) :
    (PGROUNDUP a).toNat = (a.toNat + 4095) / 4096 * 4096 := by
  have hadd : (a + 0xFFF).toNat = a.toNat + 4095 := by
    have hmask : (0xFFF : UInt64).toNat = 4095 := rfl
    rw [UInt64.toNat_add, hmask]
    exact Nat.mod_eq_of_lt (by omega)
  rw [← hadd, ← toNat_PGROUNDDOWN]
  rfl

end Xv6.Vm
