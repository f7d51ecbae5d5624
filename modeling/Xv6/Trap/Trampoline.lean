import Xv6.Memlayout
import Xv6.Riscv.Hart

/-!
# The trampoline

`uservec` and `userret` of `kernel/trampoline.S`, instruction by instruction, and the places of
`struct usertrapframe` that they use. While these blocks access the trap frame it is mapped at
`TRAPFRAME`, so the memory of the hart is read there.

`userret` keeps the saved `a0` in `t0` until its end and never reloads `t0`.
-/

namespace Xv6.Trap

open Riscv Hart Function

/-! ## The trap frame -/

/-- The byte offset of a register in `struct usertrapframe`. -/
def slot : Reg → Nat
  | .ra => 40
  | .sp => 48
  | .gp => 56
  | .tp => 64
  | .t0 => 72
  | .t1 => 80
  | .t2 => 88
  | .s0 => 96
  | .s1 => 104
  | .a0 => 112
  | .a1 => 120
  | .a2 => 128
  | .a3 => 136
  | .a4 => 144
  | .a5 => 152
  | .a6 => 160
  | .a7 => 168
  | .s2 => 176
  | .s3 => 184
  | .s4 => 192
  | .s5 => 200
  | .s6 => 208
  | .s7 => 216
  | .s8 => 224
  | .s9 => 232
  | .s10 => 240
  | .s11 => 248
  | .t3 => 256
  | .t4 => 264
  | .t5 => 272
  | .t6 => 280

abbrev KERNEL_SATP : Nat := 0
abbrev KERNEL_SP : Nat := 8
abbrev KERNEL_TRAP : Nat := 16
abbrev EPC : Nat := 24
abbrev KERNEL_HARTID : Nat := 32

/-- The registers in the order of their places. -/
def inOrder : List Reg :=
  [.ra, .sp, .gp, .tp, .t0, .t1, .t2, .s0, .s1, .a0, .a1, .a2, .a3, .a4, .a5, .a6, .a7, .s2, .s3, .s4,
    .s5, .s6, .s7, .s8, .s9, .s10, .s11, .t3, .t4, .t5, .t6]

theorem inOrder_slot (r : Reg) : inOrder[slot r / 8 - 5]? = some r := by
  cases r <;> rfl

theorem slot_inj {r r' : Reg} (h : slot r = slot r') : r = r' := by
  have hr := inOrder_slot r
  rw [h, inOrder_slot r'] at hr
  exact (Option.some.inj hr).symm

theorem slot_lt (r : Reg) : slot r < 288 := by
  cases r <;> decide

/-- The address of a register's place in the mapped trap frame. -/
def place (r : Reg) : Nat := TRAPFRAME + slot r

/-! ## The code -/

def uservec : List Instr :=
  [ .csrrw .a0 .sscratch .a0,
    .sd .ra 40 .a0,
    .sd .sp 48 .a0,
    .sd .gp 56 .a0,
    .sd .tp 64 .a0,
    .sd .t0 72 .a0,
    .sd .t1 80 .a0,
    .sd .t2 88 .a0,
    .sd .s0 96 .a0,
    .sd .s1 104 .a0,
    .sd .a1 120 .a0,
    .sd .a2 128 .a0,
    .sd .a3 136 .a0,
    .sd .a4 144 .a0,
    .sd .a5 152 .a0,
    .sd .a6 160 .a0,
    .sd .a7 168 .a0,
    .sd .s2 176 .a0,
    .sd .s3 184 .a0,
    .sd .s4 192 .a0,
    .sd .s5 200 .a0,
    .sd .s6 208 .a0,
    .sd .s7 216 .a0,
    .sd .s8 224 .a0,
    .sd .s9 232 .a0,
    .sd .s10 240 .a0,
    .sd .s11 248 .a0,
    .sd .t3 256 .a0,
    .sd .t4 264 .a0,
    .sd .t5 272 .a0,
    .sd .t6 280 .a0,
    .csrr .t0 .sscratch,
    .sd .t0 112 .a0,
    .ld .t0 8 .a0,
    .ld .t1 0 .a0,
    .ld .t2 16 .a0,
    .csrw .satp .t1,
    .sfenceVma,
    .mv .sp .t0,
    .jr .t2 ]

def userret : List Instr :=
  [ .csrw .satp .a1,
    .sfenceVma,
    .csrw .sscratch .a0,
    .ld .t0 112 .a0,
    .ld .ra 40 .a0,
    .ld .sp 48 .a0,
    .ld .gp 56 .a0,
    .ld .tp 64 .a0,
    .ld .t1 80 .a0,
    .ld .t2 88 .a0,
    .ld .s0 96 .a0,
    .ld .s1 104 .a0,
    .ld .a1 120 .a0,
    .ld .a2 128 .a0,
    .ld .a3 136 .a0,
    .ld .a4 144 .a0,
    .ld .a5 152 .a0,
    .ld .a6 160 .a0,
    .ld .a7 168 .a0,
    .ld .s2 176 .a0,
    .ld .s3 184 .a0,
    .ld .s4 192 .a0,
    .ld .s5 200 .a0,
    .ld .s6 208 .a0,
    .ld .s7 216 .a0,
    .ld .s8 224 .a0,
    .ld .s9 232 .a0,
    .ld .s10 240 .a0,
    .ld .s11 248 .a0,
    .ld .t3 256 .a0,
    .ld .t4 264 .a0,
    .ld .t5 272 .a0,
    .ld .t6 280 .a0,
    .mv .a0 .t0,
    .sret ]

/-- The registers that `uservec` stores directly. -/
def saved : List Reg :=
  [.ra, .sp, .gp, .tp, .t0, .t1, .t2, .s0, .s1, .a1, .a2, .a3, .a4, .a5, .a6, .a7, .s2, .s3, .s4,
    .s5, .s6, .s7, .s8, .s9, .s10, .s11, .t3, .t4, .t5, .t6]

/-- The registers that `userret` loads into themselves. -/
def restored : List Reg :=
  [.ra, .sp, .gp, .tp, .t1, .t2, .s0, .s1, .a1, .a2, .a3, .a4, .a5, .a6, .a7, .s2, .s3, .s4, .s5,
    .s6, .s7, .s8, .s9, .s10, .s11, .t3, .t4, .t5, .t6]

/-- What `uservec` does after the registers are stored. -/
def handoff : List Instr :=
  [ .csrr .t0 .sscratch, .sd .t0 112 .a0, .ld .t0 8 .a0, .ld .t1 0 .a0, .ld .t2 16 .a0,
    .csrw .satp .t1, .sfenceVma, .mv .sp .t0, .jr .t2 ]

theorem uservec_eq : uservec = .csrrw .a0 .sscratch .a0 :: (saves slot .a0 saved ++ handoff) := rfl

theorem userret_eq :
    userret = [.csrw .satp .a1, .sfenceVma, .csrw .sscratch .a0, .ld .t0 (slot .a0) .a0] ++
      (restores slot .a0 restored ++ [.mv .a0 .t0, .sret]) := rfl

theorem mem_saved {r : Reg} (h : r ≠ .a0) : r ∈ saved := by
  cases r <;> first | decide | exact absurd rfl h

theorem mem_restored {r : Reg} (h0 : r ≠ .a0) (h1 : r ≠ .t0) : r ∈ restored := by
  cases r <;> first | decide | exact absurd rfl h0 | exact absurd rfl h1

variable {h : Hart}

/-- With the base in `a0`, the place of a register does not wrap around. -/
theorem addr_a0 (ha : h.reg .a0 = UInt64.ofNat TRAPFRAME) {off : Nat} (hoff : off < PGSIZE) :
    h.addr off .a0 = TRAPFRAME + off := by
  unfold addr
  rw [ha]
  show (TRAPFRAME + off) % 2 ^ 64 = _
  lia

/-! ## What the blocks do -/

/-- The hart after the swap of `a0` with `sscratch`. -/
theorem swapped_reg (hs : h.csr .sscratch = UInt64.ofNat TRAPFRAME) :
    (h.step (.csrrw .a0 .sscratch .a0)).reg =
      update h.reg .a0 (UInt64.ofNat TRAPFRAME) := by
  show update h.reg .a0 (h.csr .sscratch) = _
  rw [hs]

theorem uservec_saves (hs : h.csr .sscratch = UInt64.ofNat TRAPFRAME) (r : Reg) :
    (h.exec uservec).mem (place r) = h.reg r := by
  rw [uservec_eq, exec_cons, exec_append]
  have hreg := swapped_reg hs
  have hcsr : (h.step (.csrrw .a0 .sscratch .a0)).csr .sscratch = h.reg .a0 := by
    show update h.csr .sscratch (h.reg .a0) .sscratch = _
    exact update_self _ _ _
  generalize h.step (.csrrw .a0 .sscratch .a0) = h1 at hreg hcsr
  have ha0 : h1.reg .a0 = UInt64.ofNat TRAPFRAME := by rw [hreg, update_self]
  have haddr : ∀ r, h1.addr (slot r) .a0 = place r :=
    fun r => addr_a0 ha0 (Nat.lt_trans (slot_lt r) (by decide))
  have hinj : ∀ r r', h1.addr (slot r) .a0 = h1.addr (slot r') .a0 → r = r' := by
    intro r r' heq
    rw [haddr, haddr] at heq
    exact slot_inj (Nat.add_left_cancel heq)
  -- of the rest only the store of the swapped `a0` writes to memory
  have hrest : ∀ h2 : Hart, h2.reg .a0 = UInt64.ofNat TRAPFRAME →
      (h2.exec handoff).mem = update h2.mem (place .a0) (h2.csr .sscratch) := by
    intro h2 h2a
    have haddr2 : (h2.step (.csrr .t0 .sscratch)).addr 112 .a0 = place .a0 := addr_a0 h2a (by decide)
    show update h2.mem ((h2.step (.csrr .t0 .sscratch)).addr 112 .a0)
      (update h2.reg .t0 (h2.csr .sscratch) .t0) = _
    rw [haddr2, update_self]
  rw [hrest _ (by rw [exec_saves_reg, ha0]), exec_saves_csr, hcsr]
  by_cases hr : r = .a0
  · rw [hr, update_self]
  · have hne : place r ≠ place .a0 := fun heq => hr (slot_inj (Nat.add_left_cancel heq))
    rw [update_of_ne hne, ← haddr r, exec_saves_mem hinj (mem_saved hr), hreg,
      update_of_ne hr]

/-- `userret` loads every register from its place, but `t0` from the place of `a0`. -/
theorem userret_loads (ha : h.reg .a0 = UInt64.ofNat TRAPFRAME) (r : Reg) :
    (h.exec userret).reg r = h.mem (place (if r = .t0 then .a0 else r)) := by
  rw [userret_eq, exec_append, exec_append]
  -- the hart before the block of loads
  generalize hh : h.exec [.csrw .satp .a1, .sfenceVma, .csrw .sscratch .a0, .ld .t0 (slot .a0) .a0] = h1
  have ht0 : h1.reg .t0 = h.mem (place .a0) := by
    subst hh
    show update h.reg .t0 (h.mem (h.addr (slot .a0) .a0)) .t0 = _
    rw [update_self, addr_a0 ha (by decide)]
    rfl
  have hmem : h1.mem = h.mem := by
    subst hh
    rfl
  have ha0 : h1.reg .a0 = UInt64.ofNat TRAPFRAME := by
    subst hh
    exact ha
  have hload : ∀ r, (h1.exec (restores slot .a0 restored)).reg r =
      if r ∈ restored then h.mem (place r) else h1.reg r := by
    intro r
    rw [exec_restores_reg (by decide), hmem, addr_a0 ha0 (Nat.lt_trans (slot_lt r) (by decide))]
    rfl
  show update (h1.exec (restores slot .a0 restored)).reg .a0
    ((h1.exec (restores slot .a0 restored)).reg .t0) r = _
  by_cases hr0 : r = .a0
  · rw [hr0, update_self, hload, if_neg (by decide), if_neg (by decide), ht0]
  · rw [update_of_ne hr0, hload]
    by_cases hr1 : r = .t0
    · rw [hr1, if_neg (by decide), if_pos rfl, ht0]
    · rw [if_pos (mem_restored hr0 hr1), if_neg hr1]

/-- The control registers before the block of loads of `userret`. -/
theorem entered_csr (h : Hart) :
    (h.exec [.csrw .satp .a1, .sfenceVma, .csrw .sscratch .a0, .ld .t0 (slot .a0) .a0]).csr =
      update (update h.csr .satp (h.reg .a1)) .sscratch (h.reg .a0) := rfl

theorem returned_csr (h : Hart) : (h.exec [.mv .a0 .t0, .sret]).csr =
    update h.csr .sstatus (h.csr .sstatus &&& ~~~SSTATUS_SPP) := rfl

theorem returned_pc (h : Hart) : (h.exec [.mv .a0 .t0, .sret]).pc = h.csr .sepc := rfl

theorem returned_user (h : Hart) :
    (h.exec [.mv .a0 .t0, .sret]).user = (h.csr .sstatus &&& SSTATUS_SPP == 0) := rfl

theorem userret_csr (h : Hart) :
    (h.exec userret).csr = update
      (update (update h.csr .satp (h.reg .a1)) .sscratch (h.reg .a0)) .sstatus
      (h.csr .sstatus &&& ~~~SSTATUS_SPP) := by
  rw [userret_eq, exec_append, exec_append, returned_csr, exec_restores_csr, entered_csr]
  rfl

theorem userret_pc (h : Hart) : (h.exec userret).pc = h.csr .sepc := by
  rw [userret_eq, exec_append, exec_append, returned_pc, exec_restores_csr, entered_csr]
  rfl

theorem userret_user (h : Hart) : (h.exec userret).user = (h.csr .sstatus &&& SSTATUS_SPP == 0) := by
  rw [userret_eq, exec_append, exec_append, returned_user, exec_restores_csr, entered_csr]
  rfl

theorem handoff_csr {c : Csr} (hc : c ≠ .satp) : (h.exec handoff).csr c = h.csr c :=
  update_of_ne hc _ _

/-- `uservec` changes no control register but `sscratch` and `satp`. -/
theorem uservec_csr {c : Csr} (hc : c ≠ .sscratch) (hs : c ≠ .satp) : (h.exec uservec).csr c = h.csr c := by
  rw [uservec_eq, exec_cons, exec_append, handoff_csr hs, exec_saves_csr]
  exact update_of_ne hc _ _

/-- `userret` loads all registers from their places exactly when those of `t0` and `a0` hold the same
value, and a round trip through the trap frame gives back all registers exactly when `t0` and `a0`
agree. -/
theorem registers_preserved_iff (k : Hart) (ha : k.reg .a0 = UInt64.ofNat TRAPFRAME) :
    ((∀ r, (k.exec userret).reg r = k.mem (place r)) ↔ k.mem (place .t0) = k.mem (place .a0)) ∧
    ∀ h : Hart, h.csr .sscratch = UInt64.ofNat TRAPFRAME →
      (∀ r, k.mem (place r) = (h.exec uservec).mem (place r)) →
      ((∀ r, (k.exec userret).reg r = h.reg r) ↔ h.reg .t0 = h.reg .a0) := by
  have hret : (∀ r, (k.exec userret).reg r = k.mem (place r)) ↔ k.mem (place .t0) = k.mem (place .a0) := by
    constructor
    · intro hall
      have ht0 := hall .t0
      rw [userret_loads ha, if_pos rfl] at ht0
      exact ht0.symm
    · intro heq r
      rw [userret_loads ha]
      by_cases hr : r = .t0
      · rw [if_pos hr, hr, heq]
      · rw [if_neg hr]
  refine ⟨hret, ?_⟩
  intro h hs hframe
  have hslot : ∀ r, k.mem (place r) = h.reg r := fun r => (hframe r).trans (uservec_saves hs r)
  rw [← hslot .t0, ← hslot .a0, ← hret]
  exact forall_congr' fun r => by rw [hslot r]

/-- A user program with `t0 = 1` and all other registers zero. -/
def oneInT0 : Hart where
  reg r := if r = .t0 then 1 else 0
  csr c := if c = .sscratch then UInt64.ofNat TRAPFRAME else 0
  pc := 0
  user := true
  mem _ := 0

/-- The kernel about to return to it, with the trap frame as `uservec` left it. -/
def aboutToReturn : Hart := { oneInT0.exec uservec with reg := fun _ => UInt64.ofNat TRAPFRAME }

theorem registers_preserved_oneInT0 :
    oneInT0.csr .sscratch = UInt64.ofNat TRAPFRAME ∧ aboutToReturn.reg .a0 = UInt64.ofNat TRAPFRAME ∧
      ((∀ r, (aboutToReturn.exec userret).reg r = oneInT0.reg r) ↔ (1 : UInt64) = 0) :=
  ⟨rfl, rfl, (registers_preserved_iff aboutToReturn rfl).2 oneInT0 rfl fun _ => rfl⟩

/-- The program gets its `a0` back in `t0`. -/
theorem t0_lost : ∃ h k : Hart, h.csr .sscratch = UInt64.ofNat TRAPFRAME ∧
    k.reg .a0 = UInt64.ofNat TRAPFRAME ∧ (∀ r, k.mem (place r) = (h.exec uservec).mem (place r)) ∧
    h.reg .t0 = 1 ∧ (k.exec userret).reg .t0 = 0 := by
  refine ⟨oneInT0, aboutToReturn, rfl, rfl, fun _ => rfl, rfl, ?_⟩
  rw [userret_loads rfl, if_pos rfl]
  exact uservec_saves rfl .a0

end Xv6.Trap
