import Mathlib.Algebra.Group.Nat.Defs

/-!
# Virtual memory layout

The constants of `kernel/memlayout.h` and `kernel/param.h` that address spaces and processes use.
-/

namespace Xv6

abbrev NPROC : Nat := 64
abbrev PGSIZE : Nat := 4096
abbrev KERNBASE : Nat := 0x80000000
abbrev PHYSTOP : Nat := KERNBASE + 128 * 1024 * 1024

/-- The bound on virtual addresses that `walk` accepts. -/
abbrev MAXVA : Nat := 2 ^ (9 + 9 + 9 + 12)

abbrev TRAMPOLINE : Nat := MAXVA - PGSIZE
abbrev TRAPFRAME : Nat := TRAMPOLINE - PGSIZE

def KSTACK (i : Nat) : Nat := TRAMPOLINE - (i + 1) * 2 * PGSIZE

end Xv6
