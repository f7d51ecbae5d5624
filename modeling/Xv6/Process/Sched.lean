import Mathlib.Algebra.Ring.Int.Defs
import Mathlib.Algebra.Ring.Nat

/-!
# Sleep and wakeup

The fields of `struct proc` that `sleep` and `wakeup` of `kernel/proc.c` work on. The channel is the
address that the process sleeps on, `none` for the null pointer; what the channels are is left to the
callers.
-/

namespace Xv6.Process

instance neZero_two : NeZero 2 := ⟨by decide⟩

inductive ProcState
  | unused | used | sleeping | runnable | running | zombie
  deriving DecidableEq

structure Sched (C : Type) where
  state : ProcState
  chan : Option C

namespace Sched

variable {C : Type}

/-- SLEEPING on the channel `c`. -/
def Asleep (x : Sched C) (c : C) : Prop := x.state = .sleeping ∧ x.chan = some c

instance [DecidableEq C] (x : Sched C) (c : C) : Decidable (x.Asleep c) :=
  inferInstanceAs (Decidable (_ ∧ _))

/-- What `sleep` writes before it gives up the processor. -/
def sleep (c : C) : Sched C := ⟨.sleeping, some c⟩

/-- What `wakeup` does to another process. -/
def wakeup [DecidableEq C] (c : C) (x : Sched C) : Sched C :=
  if x.Asleep c then { x with state := .runnable } else x

/-- What `kill` does to its target. -/
def kill (x : Sched C) : Sched C :=
  if x.state = .sleeping then { x with state := .runnable } else x

theorem asleep_sleep {c d : C} : (sleep c).Asleep d ↔ c = d := by
  simp [Asleep, sleep]

theorem not_asleep_of_state {x : Sched C} (hx : x.state ≠ .sleeping) (c : C) : ¬ x.Asleep c :=
  fun h => hx h.1

theorem asleep_wakeup [DecidableEq C] {c d : C} {x : Sched C} : (x.wakeup c).Asleep d ↔ x.Asleep d ∧ c ≠ d := by
  unfold wakeup
  by_cases hx : x.Asleep c
  · rw [if_pos hx]
    constructor
    · intro h
      exact absurd h.1 (by simp)
    · rintro ⟨hd, hne⟩
      exact absurd (Option.some.inj (hx.2.symm.trans hd.2)) hne
  · rw [if_neg hx]
    constructor
    · intro hd
      refine ⟨hd, ?_⟩
      intro he
      exact hx (he ▸ hd)
    · exact And.left

theorem not_asleep_kill {x : Sched C} (c : C) : ¬ x.kill.Asleep c := by
  unfold kill
  split
  · exact not_asleep_of_state (by simp) c
  · exact not_asleep_of_state ‹_› c

/-- Nothing happened, or a sleeper was woken. -/
def Roused (x y : Sched C) : Prop := y = x ∨ x.state = .sleeping ∧ y = { x with state := .runnable }

namespace Roused

variable {x y z : Sched C}

theorem wakeup [DecidableEq C] (c : C) (x : Sched C) : x.Roused (x.wakeup c) := by
  unfold Sched.wakeup
  split
  · rename_i h
    exact .inr ⟨h.1, rfl⟩
  · exact .inl rfl

theorem kill (x : Sched C) : x.Roused x.kill := by
  unfold Sched.kill
  split
  · rename_i h
    exact .inr ⟨h, rfl⟩
  · exact .inl rfl

theorem trans (h : x.Roused y) (h' : y.Roused z) : x.Roused z := by
  rcases h with rfl | ⟨hx, rfl⟩
  · exact h'
  · rcases h' with rfl | ⟨hy, -⟩
    · exact .inr ⟨hx, rfl⟩
    · cases hy

theorem running_iff (h : x.Roused y) : y.state = .running ↔ x.state = .running := by
  rcases h with rfl | ⟨hx, rfl⟩
  · exact Iff.rfl
  · simp [hx]

theorem asleep (h : x.Roused y) {c : C} (hy : y.Asleep c) : x.Asleep c := by
  rcases h with rfl | ⟨-, rfl⟩
  · exact hy
  · cases hy.1

end Roused

end Sched

end Xv6.Process
