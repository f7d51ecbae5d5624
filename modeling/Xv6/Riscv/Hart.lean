import Mathlib.Algebra.Group.Nat.Defs
import Mathlib.Logic.Function.Basic

/-!
# Straight-line RV64 code

The general registers, the supervisor control registers, and the instructions that a trap entry
and exit need: swaps with a control register, loads and stores of double words, moves, the jump to
a register and the return to the privilege level of the trap.

A block of stores at fixed offsets from one base register, and a block of loads of this kind, are
described by one lemma each.
-/

namespace Xv6.Riscv

open Function

/-- A general register other than `zero`. -/
inductive Reg
  | ra | sp | gp | tp
  | t0 | t1 | t2 | t3 | t4 | t5 | t6
  | s0 | s1 | s2 | s3 | s4 | s5 | s6 | s7 | s8 | s9 | s10 | s11
  | a0 | a1 | a2 | a3 | a4 | a5 | a6 | a7
  deriving DecidableEq

inductive Csr
  | sstatus | stvec | sscratch | sepc | scause | satp
  deriving DecidableEq

/-- A hart with the memory that it sees, in double words at byte addresses. -/
structure Hart where
  reg : Reg → UInt64
  csr : Csr → UInt64
  pc : UInt64
  user : Bool
  mem : Nat → UInt64

inductive Instr
  | csrrw (rd : Reg) (c : Csr) (rs : Reg)
  | csrr (rd : Reg) (c : Csr)
  | csrw (c : Csr) (rs : Reg)
  | sd (rs : Reg) (off : Nat) (base : Reg)
  | ld (rd : Reg) (off : Nat) (base : Reg)
  | mv (rd rs : Reg)
  | sfenceVma
  | jr (rs : Reg)
  | sret

/-- The bit of `sstatus` that holds the privilege level before the trap: set for supervisor. -/
abbrev SSTATUS_SPP : UInt64 := 0x100

/-- The bit of `sstatus` that holds the interrupt enable before the trap. -/
abbrev SSTATUS_SPIE : UInt64 := 0x20

namespace Hart

def setReg (h : Hart) (r : Reg) (v : UInt64) : Hart := { h with reg := update h.reg r v }

def setCsr (h : Hart) (c : Csr) (v : UInt64) : Hart := { h with csr := update h.csr c v }

/-- The byte address `off(base)`. -/
def addr (h : Hart) (off : Nat) (base : Reg) : Nat := ((h.reg base).toNat + off) % 2 ^ 64

/-- One instruction. The program counter is followed only through `jr` and `sret`. -/
def step (h : Hart) : Instr → Hart
  | .csrrw rd c rs => (h.setCsr c (h.reg rs)).setReg rd (h.csr c)
  | .csrr rd c => h.setReg rd (h.csr c)
  | .csrw c rs => h.setCsr c (h.reg rs)
  | .sd rs off base => { h with mem := update h.mem (h.addr off base) (h.reg rs) }
  | .ld rd off base => h.setReg rd (h.mem (h.addr off base))
  | .mv rd rs => h.setReg rd (h.reg rs)
  | .sfenceVma => h
  | .jr rs => { h with pc := h.reg rs }
  | .sret =>
    { h.setCsr .sstatus (h.csr .sstatus &&& ~~~SSTATUS_SPP) with
      pc := h.csr .sepc
      user := h.csr .sstatus &&& SSTATUS_SPP == 0 }

def exec (h : Hart) (code : List Instr) : Hart := code.foldl step h

@[simp] theorem exec_nil (h : Hart) : h.exec [] = h := rfl

@[simp] theorem exec_cons (h : Hart) (i : Instr) (code : List Instr) :
    h.exec (i :: code) = (h.step i).exec code := rfl

theorem exec_append (h : Hart) (c1 c2 : List Instr) : h.exec (c1 ++ c2) = (h.exec c1).exec c2 :=
  List.foldl_append

/-- The trap that an `ecall` of a user program at `pc` causes. -/
def ecall (h : Hart) : Hart :=
  { ((h.setCsr .sepc h.pc).setCsr .scause 8).setCsr .sstatus (h.csr .sstatus &&& ~~~SSTATUS_SPP) with
    pc := h.csr .stvec
    user := false }

/-! ## Blocks of stores and loads -/

variable {slot : Reg → Nat} {base : Reg}

/-- Store every register of a list at its offset. -/
def saves (slot : Reg → Nat) (base : Reg) (rs : List Reg) : List Instr :=
  rs.map fun r => .sd r (slot r) base

/-- Load every register of a list from its offset. -/
def restores (slot : Reg → Nat) (base : Reg) (rs : List Reg) : List Instr :=
  rs.map fun r => .ld r (slot r) base

theorem exec_saves_reg (h : Hart) (rs : List Reg) : (h.exec (saves slot base rs)).reg = h.reg := by
  induction rs generalizing h with
  | nil => rfl
  | cons r rs ih => exact ih (h.step _)

theorem exec_saves_csr (h : Hart) (rs : List Reg) : (h.exec (saves slot base rs)).csr = h.csr := by
  induction rs generalizing h with
  | nil => rfl
  | cons r rs ih => exact ih (h.step _)

/-- A place that no register of the list is stored at keeps its contents. -/
theorem exec_saves_mem_of_ne {h : Hart} {rs : List Reg} {a : Nat}
    (ha : ∀ r ∈ rs, h.addr (slot r) base ≠ a) : (h.exec (saves slot base rs)).mem a = h.mem a := by
  induction rs generalizing h with
  | nil => rfl
  | cons r rs ih =>
    have htail : ((h.step (.sd r (slot r) base)).exec (saves slot base rs)).mem a =
        (h.step (.sd r (slot r) base)).mem a :=
      ih fun r' hr' => ha r' (List.mem_cons_of_mem r hr')
    show ((h.step (.sd r (slot r) base)).exec (saves slot base rs)).mem a = h.mem a
    rw [htail]
    exact update_of_ne (Ne.symm (ha r List.mem_cons_self)) _ _

/-- Every register of the list is found at its place. -/
theorem exec_saves_mem {h : Hart} {rs : List Reg}
    (hinj : ∀ r r', h.addr (slot r) base = h.addr (slot r') base → r = r') {r : Reg} (hr : r ∈ rs) :
    (h.exec (saves slot base rs)).mem (h.addr (slot r) base) = h.reg r := by
  induction rs generalizing h with
  | nil => cases hr
  | cons r' rs ih =>
    show ((h.step (.sd r' (slot r') base)).exec (saves slot base rs)).mem _ = _
    by_cases hmem : r ∈ rs
    · exact ih hinj hmem
    · have heq : r = r' := (List.mem_cons.mp hr).resolve_right hmem
      subst heq
      rw [exec_saves_mem_of_ne]
      · exact update_self _ _ _
      · intro r'' hr'' haddr
        exact hmem (hinj r'' r haddr ▸ hr'')

theorem exec_restores_mem (h : Hart) (rs : List Reg) : (h.exec (restores slot base rs)).mem = h.mem := by
  induction rs generalizing h with
  | nil => rfl
  | cons r rs ih => exact ih (h.step _)

theorem exec_restores_csr (h : Hart) (rs : List Reg) : (h.exec (restores slot base rs)).csr = h.csr := by
  induction rs generalizing h with
  | nil => rfl
  | cons r rs ih => exact ih (h.step _)

/-- A block of loads that leaves the base register alone loads every register of the list from its
place and no other. -/
theorem exec_restores_reg {h : Hart} {rs : List Reg} (hbase : base ∉ rs) (r : Reg) :
    (h.exec (restores slot base rs)).reg r =
      if r ∈ rs then h.mem (h.addr (slot r) base) else h.reg r := by
  induction rs generalizing h with
  | nil => rfl
  | cons r' rs ih =>
    have hne : base ≠ r' := fun heq => hbase (heq ▸ List.mem_cons_self)
    have hbase' : base ∉ rs := fun hmem => hbase (List.mem_cons_of_mem r' hmem)
    -- the first load does not move the place of a register
    have haddr : (h.step (.ld r' (slot r') base)).addr (slot r) base = h.addr (slot r) base := by
      show ((update h.reg r' _ base).toNat + _) % _ = _
      rw [update_of_ne hne]
      rfl
    show ((h.step (.ld r' (slot r') base)).exec (restores slot base rs)).reg r = _
    rw [ih hbase', haddr]
    by_cases hmem : r ∈ rs
    · rw [if_pos hmem, if_pos (List.mem_cons_of_mem r' hmem)]
      rfl
    · rw [if_neg hmem]
      show update h.reg r' _ r = _
      by_cases heq : r = r'
      · subst heq
        rw [update_self, if_pos List.mem_cons_self]
      · rw [update_of_ne heq, if_neg]
        intro hcons
        exact (List.mem_cons.mp hcons).elim heq hmem

end Hart

end Xv6.Riscv
