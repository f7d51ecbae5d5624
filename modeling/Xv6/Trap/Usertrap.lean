import Xv6.Trap.Trampoline

/-!
# User traps

`usertrap` and `usertrapret` of `kernel/trap.c`, and the way of a system call from the `ecall` of
a user program through the trampoline to its resumption. The trap frame of the process is read and
written where the trampoline sees it.

`usertrap` stores the address of the `ecall` in the trap frame and advances only the control register,
which `usertrapret` then overwrites from the trap frame. `usertrapret` passes the page table's address
to `userret`, which writes it to `satp` as it is.
-/

namespace Xv6.Trap

open Riscv Hart Function

/-- The addresses of the code that the kernel refers to. -/
structure Symbols where
  kernelvec : UInt64
  usertrap : UInt64
  trampoline : UInt64
  uservec : UInt64

/-- The fields of `struct proc` that a return to user mode uses. -/
structure Proc where
  kstack : UInt64
  pagetable : UInt64

/-- `MAKE_SATP`: Sv39 mode and the page number of the table. -/
def makeSatp (pagetable : UInt64) : UInt64 := pagetable >>> 12 ||| 0x8000000000000000

/-- The kernel on the hart. `dispatched` is auxiliary: how often `syscall` was called. -/
structure Kernel where
  hart : Hart
  dispatched : Nat

namespace Kernel

def setCsr (k : Kernel) (c : Csr) (v : UInt64) : Kernel := { k with hart := k.hart.setCsr c v }

def frame (k : Kernel) (off : Nat) : UInt64 := k.hart.mem (TRAPFRAME + off)

def setFrame (k : Kernel) (off : Nat) (v : UInt64) : Kernel :=
  { k with hart := { k.hart with mem := update k.hart.mem (TRAPFRAME + off) v } }

/-- The call of `syscall`. Other processes may run until it returns, so the hart that `d` gives is
any hart. -/
def syscall (k : Kernel) (d : Hart → Hart) : Kernel := ⟨d k.hart, k.dispatched + 1⟩

end Kernel

/-- Up to the call of `userret`. -/
def usertrapret (sym : Symbols) (p : Proc) (k : Kernel) : Kernel :=
  let sstatus := k.hart.csr .sstatus
  let k := k.setFrame KERNEL_SATP (k.hart.csr .satp)
  let k := k.setFrame KERNEL_SP (p.kstack + UInt64.ofNat PGSIZE)
  let k := k.setFrame KERNEL_TRAP sym.usertrap
  let k := k.setFrame KERNEL_HARTID (k.hart.reg .tp)
  let k := k.setCsr .sstatus (sstatus &&& ~~~SSTATUS_SPP ||| SSTATUS_SPIE)
  let k := k.setCsr .sepc (k.frame EPC)
  let k := k.setCsr .sscratch (UInt64.ofNat TRAPFRAME)
  let k := k.setCsr .stvec (UInt64.ofNat TRAMPOLINE + (sym.uservec - sym.trampoline))
  { k with hart := (k.hart.setReg .a0 (UInt64.ofNat TRAPFRAME)).setReg .a1 p.pagetable }

/-- The cause of an `ecall` from user mode. -/
abbrev SCAUSE_USER_ECALL : UInt64 := 8

def usertrap (sym : Symbols) (p : Proc) (d : Hart → Hart) (k : Kernel) : Except String Kernel :=
  let scause := k.hart.csr .scause
  let sepc := k.hart.csr .sepc
  if k.hart.csr .sstatus &&& SSTATUS_SPP ≠ 0 then .error "usertrap: not from user mode"
  else
    let k := k.setCsr .stvec sym.kernelvec
    if scause = SCAUSE_USER_ECALL then
      let k := k.setFrame EPC sepc
      let k := k.setCsr .sepc (sepc + 4)
      let k := k.syscall d
      .ok (usertrapret sym p k)
    else .error "unexpected user exception"

/-- The trampoline's return to user mode. -/
def Kernel.userret (k : Kernel) : Kernel := { k with hart := k.hart.exec Trap.userret }

/-- The way of an `ecall`: the trap, `uservec`, `usertrap` and `userret`. -/
def ecallRound (sym : Symbols) (p : Proc) (d : Hart → Hart) (k : Kernel) : Except String Kernel := do
  let k := { k with hart := k.hart.ecall.exec uservec }
  let k ← usertrap sym p d k
  pure k.userret

/-! ## System calls that return -/

/-- A system call of a user program that returns and does not replace the program: the saved program
counter is not touched. -/
structure Call where
  user : Hart
  dispatch : Hart → Hart
  user_mode : user.user = true
  sscratch : user.csr .sscratch = UInt64.ofNat TRAPFRAME
  epc : ∀ h, (dispatch h).mem (TRAPFRAME + EPC) = h.mem (TRAPFRAME + EPC)

/-- The program goes on after the `ecall`, in user mode and under its page table, and the call was
dispatched once. -/
structure Contract (sym : Symbols) (p : Proc) (c : Call) (k : Kernel) : Prop where
  returns : ecallRound sym p c.dispatch ⟨c.user, 0⟩ = .ok k
  once : k.dispatched = 1
  pc : k.hart.pc = c.user.pc + 4
  user : k.hart.user = true
  spp : k.hart.csr .sstatus &&& SSTATUS_SPP = 0
  satp : k.hart.csr .satp = makeSatp p.pagetable

/-- What the code does instead: the program goes back to the `ecall`, with the bare address of its
page table in `satp`. -/
structure Resumed (p : Proc) (c : Call) (k : Kernel) : Prop where
  once : k.dispatched = 1
  pc : k.hart.pc = c.user.pc
  user : k.hart.user = true
  spp : k.hart.csr .sstatus &&& SSTATUS_SPP = 0
  satp : k.hart.csr .satp = p.pagetable
  sscratch : k.hart.csr .sscratch = UInt64.ofNat TRAPFRAME

theorem and_not_spp (x : UInt64) : x &&& ~~~SSTATUS_SPP &&& SSTATUS_SPP = 0 := by
  rw [UInt64.and_assoc]
  have h : ~~~SSTATUS_SPP &&& SSTATUS_SPP = 0 := by decide
  rw [h, UInt64.and_zero]

theorem prepared_spp (x : UInt64) : (x &&& ~~~SSTATUS_SPP ||| SSTATUS_SPIE) &&& SSTATUS_SPP = 0 := by
  have hdistrib : (x &&& ~~~SSTATUS_SPP ||| SSTATUS_SPIE) &&& SSTATUS_SPP =
      x &&& ~~~SSTATUS_SPP &&& SSTATUS_SPP ||| SSTATUS_SPIE &&& SSTATUS_SPP := by
    apply UInt64.toBitVec_inj.mp
    simp only [UInt64.toBitVec_and, UInt64.toBitVec_or]
    exact BitVec.and_or_distrib_right
  rw [hdistrib, and_not_spp]
  decide

/-- `userret` starts from what `usertrapret` has prepared. -/
theorem userret_resumes (sym : Symbols) (p : Proc) (c : Call) {k : Kernel} (h1 : k.dispatched = 1)
    (hepc : k.frame EPC = c.user.pc) : Resumed p c (usertrapret sym p k).userret where
  once := h1
  pc := by
    show ((usertrapret sym p k).hart.exec userret).pc = _
    rw [userret_pc, ← hepc]
    rfl
  user := by
    show ((usertrapret sym p k).hart.exec userret).user = _
    rw [userret_user]
    show ((k.hart.csr .sstatus &&& ~~~SSTATUS_SPP ||| SSTATUS_SPIE) &&& SSTATUS_SPP == 0) = true
    rw [prepared_spp]
    rfl
  spp := by
    show ((usertrapret sym p k).hart.exec userret).csr .sstatus &&& _ = _
    rw [userret_csr, update_self, and_not_spp]
  satp := by
    show ((usertrapret sym p k).hart.exec userret).csr .satp = _
    rw [userret_csr]
    rfl
  sscratch := by
    show ((usertrapret sym p k).hart.exec userret).csr .sscratch = _
    rw [userret_csr]
    rfl

/-- A system call that returns is dispatched once, and the program resumes as `Resumed` describes. -/
theorem ecallRound_resumes (sym : Symbols) (p : Proc) (c : Call) :
    ∃ k, ecallRound sym p c.dispatch ⟨c.user, 0⟩ = .ok k ∧ Resumed p c k := by
  have hcsr : ∀ r : Csr, r ≠ .sscratch → r ≠ .satp →
      (c.user.ecall.exec uservec).csr r = c.user.ecall.csr r := fun r => uservec_csr
  have hspp : (c.user.ecall.exec uservec).csr .sstatus &&& SSTATUS_SPP = 0 := by
    rw [hcsr _ (by decide) (by decide)]
    exact and_not_spp _
  have hcause : (c.user.ecall.exec uservec).csr .scause = SCAUSE_USER_ECALL := by
    rw [hcsr _ (by decide) (by decide)]
    rfl
  have hsepc : (c.user.ecall.exec uservec).csr .sepc = c.user.pc := by
    rw [hcsr _ (by decide) (by decide)]
    rfl
  unfold ecallRound usertrap
  simp only [hspp, hcause, hsepc, ne_eq, not_true_eq_false, if_false, if_true]
  refine ⟨_, rfl, userret_resumes sym p c rfl ?_⟩
  show (c.dispatch _).mem (TRAPFRAME + EPC) = _
  rw [c.epc]
  show update (c.user.ecall.exec uservec).mem (TRAPFRAME + EPC) c.user.pc (TRAPFRAME + EPC) = _
  rw [update_self]

theorem pc_ne_add_four (pc : UInt64) : pc ≠ pc + 4 := by
  intro h
  have h' := congrArg UInt64.toNat h
  rw [UInt64.toNat_add] at h'
  have := pc.toNat_lt
  have h4 : (4 : UInt64).toNat = 4 := rfl
  omega

/-- Every system call that returns is dispatched once and resumes in user mode with SPP clear, but at
the `ecall` and with the bare address of the page table in `satp`. So the contract holds for a sequence
of system calls only when it is empty. -/
theorem contract_iff_no_call (sym : Symbols) (p : Proc) (cs : List Call) :
    (∀ c ∈ cs, ∃ k, ecallRound sym p c.dispatch ⟨c.user, 0⟩ = .ok k ∧ Resumed p c k) ∧
      ((∀ c ∈ cs, ∃ k, Contract sym p c k) ↔ cs = []) := by
  refine ⟨fun c _ => ecallRound_resumes sym p c, ?_⟩
  constructor
  · intro hall
    cases cs with
    | nil => rfl
    | cons c cs =>
      obtain ⟨k, hk⟩ := hall c List.mem_cons_self
      obtain ⟨k', hk', hr⟩ := ecallRound_resumes sym p c
      have heq : k = k' := Except.ok.inj (hk.returns.symm.trans hk')
      subst heq
      exact absurd (hr.pc.symm.trans hk.pc) (pc_ne_add_four _)
  · intro hnil c hc
    rw [hnil] at hc
    cases hc

/-- The first system call of `initcode`: an `ecall` at address 8. -/
def initcodeWrite : Call where
  user :=
    { reg := fun _ => 0
      csr := fun c => if c = .sscratch then UInt64.ofNat TRAPFRAME else 0
      pc := 8
      user := true
      mem := fun _ => 0 }
  dispatch := id
  user_mode := rfl
  sscratch := rfl
  epc _ := rfl

/-- It resumes at address 8 again, and `satp` holds the address of the page table with mode 0. -/
theorem ecall_repeated : ∃ k,
    ecallRound ⟨0, 0, 0, 0⟩ ⟨0, 0x87f00000⟩ initcodeWrite.dispatch ⟨initcodeWrite.user, 0⟩ = .ok k ∧
      k.hart.pc = 8 ∧ k.hart.csr .satp = 0x87f00000 ∧ k.hart.csr .satp ≠ makeSatp 0x87f00000 := by
  obtain ⟨k, hk, hr⟩ := ecallRound_resumes ⟨0, 0, 0, 0⟩ ⟨0, 0x87f00000⟩ initcodeWrite
  refine ⟨k, hk, hr.pc, hr.satp, ?_⟩
  rw [hr.satp]
  decide

end Xv6.Trap
