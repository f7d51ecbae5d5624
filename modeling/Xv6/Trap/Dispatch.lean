import Xv6.Param
import Xv6.Trap.Trampoline

/-!
# System call dispatch

`syscall` of `kernel/syscall.c` with its table, and the functions that fetch the arguments from the
trap frame. A trap frame maps byte offsets to double words; what a handler does with it is left open.

The number is cut down to an `int` before it is checked, and argument `n` is fetched from slot
`n + 12`, while `struct usertrapframe` has `a0` in slot `14`.
-/

namespace Xv6.Trap

open Riscv Function

abbrev Frame := Nat → UInt64

inductive Handler
  | fork | exit | wait | pipe | read | kill | exec | fstat | chdir | dup | getpid | sbrk | uptime
  | open | write | mknod | unlink | link | mkdir | close
  deriving DecidableEq

abbrev SYS_MAX : Nat := 21

/-- The table `syscalls`; `SYS_sleep`, which is `13`, has no handler. -/
def syscalls : Nat → Option Handler
  | 1 => some .fork
  | 2 => some .exit
  | 3 => some .wait
  | 4 => some .pipe
  | 5 => some .read
  | 6 => some .kill
  | 7 => some .exec
  | 8 => some .fstat
  | 9 => some .chdir
  | 10 => some .dup
  | 11 => some .getpid
  | 12 => some .sbrk
  | 14 => some .uptime
  | 15 => some .open
  | 16 => some .write
  | 17 => some .mknod
  | 18 => some .unlink
  | 19 => some .link
  | 20 => some .mkdir
  | 21 => some .close
  | _ => none

/-- The handler that `syscall` finds for the number `num`. -/
def handlerFor (num : Int) : Option Handler :=
  if 0 < num ∧ num ≤ SYS_MAX then syscalls num.toNat else none

/-- The handlers that are called, and the trap frame afterwards. -/
def syscall (body : Handler → Frame → Frame × UInt64) (tf : Frame) : List Handler × Frame :=
  match handlerFor (s32 (tf (slot .a7)).toNat) with
  | some h => ([h], update (body h tf).1 (slot .a0) (body h tf).2)
  | none => ([], update tf (slot .a0) (-1))

/-! ## Arguments -/

def fetchargint (n : Int) (tf : Frame) : Option UInt64 :=
  if n < 0 ∨ 6 ≤ n then none else some (tf ((n.toNat + 12) * 8))

/-- The `int` with the low bits of the slot. -/
def argint (n : Int) (tf : Frame) : Option UInt32 := (fetchargint n tf).map UInt64.toUInt32

def argaddr (n : Int) (tf : Frame) : Option UInt64 := fetchargint n tf

/-- `argstr` fetches the string at the given user address with `fetchstr`. -/
def argstr {α : Type} (fetchstr : UInt64 → Option α) (n : Int) (tf : Frame) : Option α :=
  match argaddr n tf with
  | some addr => fetchstr addr
  | none => none

/-- The register in which the user passes argument `n`. -/
def argReg : Fin 6 → Reg
  | 0 => .a0
  | 1 => .a1
  | 2 => .a2
  | 3 => .a3
  | 4 => .a4
  | 5 => .a5

/-! ## The contract -/

/-- The handler that the calling convention prescribes. -/
def prescribed (tf : Frame) : Option Handler := syscalls (tf (slot .a7)).toNat

/-- One call of the prescribed handler or `-1`, the arguments in their registers, and no other slot
changed. -/
structure Abi (body : Handler → Frame → Frame × UInt64) (tf : Frame) : Prop where
  called : (syscall body tf).1 = (prescribed tf).toList
  missing : prescribed tf = none → (syscall body tf).2 (slot .a0) = -1
  argaddr : ∀ n : Fin 6, argaddr n.val tf = some (tf (slot (argReg n)))
  argint : ∀ n : Fin 6, argint n.val tf = some (tf (slot (argReg n))).toUInt32
  argstr : ∀ {α : Type} (fetchstr : UInt64 → Option α) (n : Fin 6),
    argstr fetchstr n.val tf = fetchstr (tf (slot (argReg n)))
  kept : ∀ off, off ≠ slot .a0 →
    (syscall body tf).2 off = ((syscall body tf).1.foldl (fun t h => (body h t).1) tf) off

/-- The table has no entries beyond `SYS_MAX`. -/
theorem le_of_syscalls {n : Nat} {h : Handler} (hn : syscalls n = some h) : 0 < n ∧ n ≤ SYS_MAX := by
  by_contra hout
  have hnone : syscalls n = none := by
    unfold syscalls
    split <;> first | rfl | (exfalso; lia)
  cases hnone.symm.trans hn

theorem handlerFor_of_lt {n : Nat} (hn : n < 2 ^ 32) : handlerFor (s32 n) = syscalls n := by
  unfold handlerFor s32
  rw [Nat.mod_eq_of_lt hn]
  by_cases hpos : n < 2 ^ 31
  · rw [if_pos hpos]
    by_cases hrange : 0 < n ∧ n ≤ SYS_MAX
    · rw [if_pos (by lia)]
      rfl
    · rw [if_neg (by lia)]
      cases hs : syscalls n with
      | none => rfl
      | some h => exact absurd (le_of_syscalls hs) hrange
  · rw [if_neg hpos, if_neg (by lia)]
    cases hs : syscalls n with
    | none => rfl
    | some h =>
      have := le_of_syscalls hs
      lia

theorem fetchargint_eq (n : Fin 6) (tf : Frame) : fetchargint n.val tf = some (tf ((n.val + 12) * 8)) := by
  unfold fetchargint
  rw [if_neg (by have := n.isLt; lia)]
  rfl

theorem syscall_fst (body : Handler → Frame → Frame × UInt64) (tf : Frame) :
    (syscall body tf).1 = (handlerFor (s32 (tf (slot .a7)).toNat)).toList := by
  unfold syscall
  cases handlerFor (s32 (tf (slot .a7)).toNat) <;> rfl

/-- A program that passes `1` as its first argument to `close`, with `a7 = 2 ^ 32 + 21`. -/
def wideClose : Frame := fun off => if off = slot .a7 then 0x100000015 else if off = slot .a0 then 1 else 0

end Xv6.Trap
