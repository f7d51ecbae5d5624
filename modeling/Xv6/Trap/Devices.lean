import Xv6.Trap.Usertrap

/-!
# Device interrupts

`devintr` and `kerneltrap` of `kernel/trap.c` with the interrupt controller, and the traps of user
programs other than system calls. In supervisor mode every claimed interrupt is served and completed. In
user mode `devintr` is not called at all: `usertrap` knows the cause of an `ecall` only and panics on
every other one.
-/

namespace Xv6.Trap

open Riscv Hart

/-! ## The interrupt controller -/

abbrev UART0_IRQ : UInt32 := 10
abbrev VIRTIO0_IRQ : UInt32 := 1

/-- The cause of a supervisor external interrupt. -/
abbrev SCAUSE_SEXTERNAL : UInt64 := 0x8000000000000009

/-- The bit of `scause` that tells an interrupt from an exception. -/
abbrev SCAUSE_INTERRUPT : UInt64 := 0x8000000000000000

inductive Source
  | uart
  | disk
  | unknown (irq : UInt32)
  deriving DecidableEq

/-- Which handler `devintr` calls. -/
def source (irq : UInt32) : Source :=
  if irq = UART0_IRQ then .uart else if irq = VIRTIO0_IRQ then .disk else .unknown irq

/-- The interrupts that wait for a claim, and those claimed, served and completed so far, the last one
first. -/
structure Plic where
  pending : List UInt32
  claimed : List UInt32 := []
  served : List Source := []
  completed : List UInt32 := []

namespace Plic

def claim (c : Plic) : UInt32 × Plic :=
  match c.pending with
  | [] => (0, c)
  | irq :: rest => (irq, { c with pending := rest, claimed := irq :: c.claimed })

def complete (c : Plic) (irq : UInt32) : Plic := { c with completed := irq :: c.completed }

/-- The call of a handler, which may panic. -/
def serve (c : Plic) (handler : Source → Except String Unit) (x : Source) : Except String Plic := do
  handler x
  pure { c with served := x :: c.served }

end Plic

def devintr (handler : Source → Except String Unit) (scause : UInt64) (c : Plic) :
    Except String (Bool × Plic) :=
  if scause = SCAUSE_SEXTERNAL then
    let (irq, c) := c.claim
    if irq = 0 then .ok (false, c)
    else do
      let c ← c.serve handler (source irq)
      pure (true, c.complete irq)
  else .ok (false, c)

/-- The diagnostics are left out. -/
def kerneltrap (handler : Source → Except String Unit) (sstatus scause : UInt64) (c : Plic) :
    Except String Plic :=
  if sstatus &&& SSTATUS_SPP = 0 then .error "kerneltrap: not supervisor"
  else if scause &&& SCAUSE_INTERRUPT ≠ 0 then
    if scause &&& 0xff = 9 then do
      let (_, c) ← devintr handler scause c
      pure c
    else .ok c
  else .error "unexpected supervisor exception"

/-- One more interrupt was claimed, served and completed. -/
structure Plic.Once (c c' : Plic) (irq : UInt32) : Prop where
  claimed : c'.claimed = irq :: c.claimed
  served : c'.served = source irq :: c.served
  completed : c'.completed = irq :: c.completed

/-- In supervisor mode an external interrupt whose handler returns is claimed, served and completed
once. -/
theorem kerneltrap_once {handler : Source → Except String Unit} {sstatus : UInt64} {c : Plic}
    {irq : UInt32} {rest : List UInt32} (hspp : sstatus &&& SSTATUS_SPP ≠ 0)
    (hpending : c.pending = irq :: rest) (hirq : irq ≠ 0) (hhandler : handler (source irq) = .ok ()) :
    ∃ c', kerneltrap handler sstatus SCAUSE_SEXTERNAL c = .ok c' ∧ c.Once c' irq := by
  have hclaim : c.claim = (irq, { c with pending := rest, claimed := irq :: c.claimed }) := by
    unfold Plic.claim
    rw [hpending]
  have hdev : devintr handler SCAUSE_SEXTERNAL c = .ok (true, { c with
        pending := rest
        claimed := irq :: c.claimed
        served := source irq :: c.served
        completed := irq :: c.completed }) := by
    unfold devintr Plic.serve
    rw [if_pos rfl, hclaim]
    dsimp only
    rw [if_neg hirq, hhandler]
    rfl
  unfold kerneltrap
  rw [if_neg hspp, if_pos (by decide), if_pos (by decide), hdev]
  exact ⟨_, rfl, rfl, rfl, rfl⟩

/-! ## Traps of user programs -/

/-- The hart that runs a user program, the interrupt controller, and the states of the other processes. -/
structure System (ρ : Type) where
  hart : Hart
  plic : Plic
  others : ρ

/-- A trap of a user program that is no system call. -/
inductive UserTrap
  | external (irq : UInt32)
  | exception (cause : UInt64) (hcause : cause &&& SCAUSE_INTERRUPT = 0) (hcall : cause ≠ SCAUSE_USER_ECALL)

def UserTrap.cause : UserTrap → UInt64
  | external _ => SCAUSE_SEXTERNAL
  | exception cause _ _ => cause

theorem UserTrap.cause_ne (t : UserTrap) : t.cause ≠ SCAUSE_USER_ECALL := by
  cases t with
  | external irq =>
    show SCAUSE_SEXTERNAL ≠ SCAUSE_USER_ECALL
    decide
  | exception cause _ hcall => exact hcall

/-- The entry into a trap with the given cause from user mode. -/
def enter (h : Hart) (cause : UInt64) : Hart :=
  { ((h.setCsr .sepc h.pc).setCsr .scause cause).setCsr .sstatus (h.csr .sstatus &&& ~~~SSTATUS_SPP) with
    pc := h.csr .stvec
    user := false }

variable {ρ : Type}

/-- The way of a trap: `uservec`, `usertrap` and `userret`. Where `usertrap` calls `syscall`, which it does
for no trap of this kind, `d` says what becomes of the hart. -/
def trapRound (sym : Symbols) (p : Proc) (d : Hart → Hart) (t : UserTrap) (s : System ρ) :
    Except String (System ρ) := do
  let k ← usertrap sym p d ⟨(enter s.hart t.cause).exec uservec, 0⟩
  pure { s with hart := k.userret.hart }

/-- The interrupt is served once and the program goes on as if nothing had happened; an exception does not
stop the kernel. The other processes are as they were. -/
def Handled (sym : Symbols) (p : Proc) (d : Hart → Hart) (t : UserTrap) (s : System ρ) : Prop :=
  ∃ s', trapRound sym p d t s = .ok s' ∧ s'.others = s.others ∧
    match t with
    | .external irq => s.plic.Once s'.plic irq ∧ s'.hart.reg = s.hart.reg ∧ s'.hart.pc = s.hart.pc ∧
        s'.hart.user = true
    | .exception _ _ _ => True

/-- `usertrap` panics on every trap that is no system call. -/
theorem trapRound_panics (sym : Symbols) (p : Proc) (d : Hart → Hart) (t : UserTrap) (s : System ρ) :
    trapRound sym p d t s = .error "unexpected user exception" := by
  have hcsr : ∀ r : Csr, r ≠ .sscratch → r ≠ .satp →
      ((enter s.hart t.cause).exec uservec).csr r = (enter s.hart t.cause).csr r := fun r => uservec_csr
  have hspp : ((enter s.hart t.cause).exec uservec).csr .sstatus &&& SSTATUS_SPP = 0 := by
    rw [hcsr _ (by decide) (by decide)]
    exact and_not_spp _
  have hcause : ((enter s.hart t.cause).exec uservec).csr .scause = t.cause := by
    rw [hcsr _ (by decide) (by decide)]
    rfl
  unfold trapRound usertrap
  simp only [hspp, hcause, t.cause_ne, ne_eq, not_true_eq_false, if_false]
  rfl

/-- No trap of this kind is handled, so a run meets the contract only if none arrives. -/
theorem handled_iff_none (sym : Symbols) (p : Proc) (d : Hart → Hart) (ts : List (UserTrap × System ρ)) :
    (∀ t ∈ ts, trapRound sym p d t.1 t.2 = .error "unexpected user exception") ∧
      ((∀ t ∈ ts, Handled sym p d t.1 t.2) ↔ ts = []) := by
  refine ⟨fun t _ => trapRound_panics sym p d t.1 t.2, ?_⟩
  constructor
  · intro hall
    cases ts with
    | nil => rfl
    | cons t ts =>
      obtain ⟨s', hround, -⟩ := hall t List.mem_cons_self
      rw [trapRound_panics] at hround
      cases hround
  · intro hnil t ht
    rw [hnil] at ht
    cases ht

/-- A program in user mode when the disk has completed a request. -/
def interrupted : System Unit where
  hart :=
    { reg := fun _ => 0
      csr := fun c => if c = .sscratch then UInt64.ofNat TRAPFRAME else 0
      pc := 0x20
      user := true
      mem := fun _ => 0 }
  plic := { pending := [VIRTIO0_IRQ] }
  others := ()

/-- The kernel panics, and the interrupt is not claimed. -/
theorem disk_interrupt_panics :
    trapRound ⟨0, 0, 0, 0⟩ ⟨0, 0x87f00000⟩ id (.external VIRTIO0_IRQ) interrupted =
        .error "unexpected user exception" ∧
      ¬ Handled ⟨0, 0, 0, 0⟩ ⟨0, 0x87f00000⟩ id (.external VIRTIO0_IRQ) interrupted := by
  have hpanic := trapRound_panics ⟨0, 0, 0, 0⟩ ⟨0, 0x87f00000⟩ id (.external VIRTIO0_IRQ) interrupted
  refine ⟨hpanic, ?_⟩
  rintro ⟨s', hround, -⟩
  cases hpanic.symm.trans hround

end Xv6.Trap
