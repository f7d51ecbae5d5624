import Mathlib.Data.Nat.Bitwise

/-!
# Sv39 address translation

The translation process of the privileged architecture for Sv39. Memory is given by physical page
numbers, with 512 entries to a page. A reserved bit or encoding in an entry raises a page fault, as
does a virtual address whose bits 63 to 39 differ from bit 38; a fault is `none`. Whether an access
finds the accessed and dirty bits set is left to the hardware.
-/

namespace Xv6.Riscv.Sv39

/-- The page that an address is translated to, and what may be done with it. -/
structure Target where
  ppn : Nat
  r : Bool
  w : Bool
  x : Bool
  u : Bool
  deriving DecidableEq

/-- A field of an entry by its bit number. -/
def bit (pte : UInt64) (i : Nat) : Bool := pte.toNat.testBit i

/-- Bits 53 to 10 of an entry. -/
def ppn (pte : UInt64) : Nat := pte.toNat / 2 ^ 10 % 2 ^ 44

/-- The nine bits of a virtual address that index a table of the given level. -/
def vpn (level : Nat) (va : UInt64) : Fin 512 := Fin.ofNat 512 (va.toNat / 2 ^ (12 + 9 * level))

/-- Bits 63 to 39 of the address all equal bit 38. -/
def Canonical (va : UInt64) : Prop := va.toNat < 2 ^ 38 ∨ 2 ^ 64 - 2 ^ 38 ≤ va.toNat

instance (va : UInt64) : Decidable (Canonical va) := inferInstanceAs (Decidable (_ ∨ _))

/-- An entry that is not valid or has a reserved encoding. -/
def Faulty (pte : UInt64) : Prop :=
  bit pte 0 = false ∨ bit pte 1 = false ∧ bit pte 2 = true ∨ 2 ^ 54 ≤ pte.toNat

instance (pte : UInt64) : Decidable (Faulty pte) := inferInstanceAs (Decidable (_ ∨ _))

/-- Translation from a table of the given level. -/
def translateFrom (mem : Nat → Fin 512 → UInt64) (va : UInt64) : Nat → Nat → Option Target
  | level, table =>
    let pte := mem table (vpn level va)
    if Faulty pte then none
    else if bit pte 1 ∨ bit pte 3 then
      -- the low parts of the page number of a larger page come from the address and must be zero
      if ppn pte % 2 ^ (9 * level) ≠ 0 then none
      else some ⟨ppn pte + va.toNat / 2 ^ 12 % 2 ^ (9 * level), bit pte 1, bit pte 2, bit pte 3, bit pte 4⟩
    else
      match level with
      | 0 => none
      | level + 1 =>
        if bit pte 4 ∨ bit pte 6 ∨ bit pte 7 then none else translateFrom mem va level (ppn pte)

/-- Translation under a value of `satp` that selects Sv39. -/
def translate (mem : Nat → Fin 512 → UInt64) (satp va : UInt64) : Option Target :=
  if satp.toNat / 2 ^ 60 = 8 ∧ Canonical va then translateFrom mem va 2 (satp.toNat % 2 ^ 44) else none

end Xv6.Riscv.Sv39
